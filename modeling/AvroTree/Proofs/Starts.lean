import AvroTree.Parse.Idl
import AvroTree.Parse.Schema
import AvroTree.Proofs.Derivations

/-!
# What constructs start with

The readers look up what a construct starts with in the table of first sets. The table has been
evaluated once (`Grammar.avroTable_facts`); here is what it holds for each of them, so that no proof
has to look into it.
-/

namespace AvroTree

namespace Parse

namespace First

theorem declaration_eq : declaration = .ofList Grammar.declarationKinds :=
  Grammar.avroTable_first (by decide)

theorem protocolMember_eq : protocolMember = .ofList Grammar.memberKinds :=
  Grammar.avroTable_first (by decide)

theorem returnType_eq : returnType = .ofList Grammar.returnTypeKinds :=
  Grammar.avroTable_first (by decide)

theorem importKind_eq : importKind = .ofList Grammar.importKinds :=
  Grammar.avroTable_first (by decide)

theorem fieldDeclaration_eq : fieldDeclaration = .ofList Grammar.typeKinds :=
  Grammar.avroTable_first (by decide)

theorem parameter_eq : parameter = .ofList Grammar.typeKinds :=
  Grammar.avroTable_first (by decide)

theorem type_eq : First.type = .ofList Grammar.typeKinds :=
  Grammar.avroTable_first (by decide)

theorem baseType_eq : baseType = .ofList Grammar.baseTypeKinds :=
  Grammar.avroTable_first (by decide)

theorem schemaValue_eq : schemaValue = .ofList Grammar.schemaKinds :=
  Grammar.avroTable_first (by decide)

/-! None of them starts with the end of the text. -/

theorem returnType_eof : returnType.contains .eof = false :=
  Grammar.first_eof "_return_type"

theorem importKind_eof : importKind.contains .eof = false :=
  Grammar.first_eof "import_kind"

theorem fieldDeclaration_eof : fieldDeclaration.contains .eof = false :=
  Grammar.first_eof "field_declaration"

theorem protocolMember_eof : protocolMember.contains .eof = false :=
  Grammar.first_eof "_protocol_member"

theorem parameter_eof : parameter.contains .eof = false :=
  Grammar.first_eof "parameter"

theorem type_eof : First.type.contains .eof = false :=
  Grammar.first_eof "_type"

theorem baseType_eof : baseType.contains .eof = false :=
  Grammar.first_eof "_base_type"

theorem schemaValue_eof : schemaValue.contains .eof = false :=
  Grammar.first_eof "_schema_value"

end First

end Parse

end AvroTree
