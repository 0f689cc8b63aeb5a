import Mathlib.Tactic
import AvroTree.Lexer.State

/-!
# States and their bytes

A state with no more brackets than can be counted is read back from its bytes (`decode_encode`),
so two such states with the same bytes are one (`encode_inj`). Bytes that can be read are those of a
state, or none at all (`decode_exact`).
-/

namespace AvroTree

namespace Lexer

namespace State

theorem decodeMode_byte (m : Mode) : decodeMode m.byte = .ok m := by
  cases m <;> rfl

theorem decodeBracket_byte (b : Bracket) : decodeBracket b.byte = .ok b := by
  cases b <;> rfl

theorem decodeComment_byte (c : Option CommentKind) :
    decodeComment ((c.map CommentKind.byte).getD 0) = .ok c := by
  rcases c with _ | c
  · rfl
  · cases c <;> rfl

theorem mapM_decodeBracket : ∀ bs : List Bracket,
    (bs.map Bracket.byte).mapM decodeBracket = .ok bs
  | [] => rfl
  | b :: bs => by
    rw [List.map_cons, List.mapM_cons, decodeBracket_byte, mapM_decodeBracket bs]
    rfl

theorem decode_encode {s : State} (h : s.depth ≤ depthCeiling) : decode s.encode = .ok s := by
  have hlen : s.stack.reverse.length ≤ depthCeiling := by
    rw [List.length_reverse]
    exact h
  have hcount : (UInt8.ofNat s.stack.reverse.length).toNat = s.stack.reverse.length := by
    rw [UInt8.toNat_ofNat']
    exact Nat.mod_eq_of_lt (Nat.lt_succ_of_le hlen)
  rw [encode, List.take_of_length_le hlen]
  simp only [List.cons_append, List.nil_append]
  rw [decode, if_neg (not_not.2 rfl)]
  simp only [decodeMode_byte, decodeComment_byte, hcount, List.length_map, mapM_decodeBracket,
    ne_eq, not_true_eq_false, ↓reduceIte]
  show Except.ok { s with stack := s.stack.reverse.reverse } = _
  rw [List.reverse_reverse]

theorem load_encode {cap : Nat} {s : State} (h : s.depth ≤ cap) (hcap : cap ≤ depthCeiling) :
    load cap s.encode = .ok s := by
  rw [load, decode_encode (h.trans hcap)]
  show (if cap < s.depth then throw _ else pure s) = _
  rw [if_neg (Nat.not_lt.2 h)]
  rfl

theorem encode_inj {s t : State} (hs : s.depth ≤ depthCeiling) (ht : t.depth ≤ depthCeiling)
    (h : s.encode = t.encode) : s = t := by
  have heq : decode s.encode = decode t.encode := congrArg decode h
  rw [decode_encode hs, decode_encode ht] at heq
  exact Except.ok.inj heq

/-! ## Reading bytes -/

theorem byte_of_decodeMode {b : UInt8} {m : Mode} (h : decodeMode b = .ok m) : m.byte = b := by
  rw [decodeMode] at h
  cases hm : Mode.ofByte? b with
  | none =>
    rw [hm] at h
    cases h
  | some m' =>
    rw [hm] at h
    cases h
    rw [Mode.ofByte?] at hm
    simpa using List.find?_some hm

theorem byte_of_decodeBracket {b : UInt8} {k : Bracket} (h : decodeBracket b = .ok k) :
    k.byte = b := by
  rw [decodeBracket] at h
  cases hk : Bracket.ofByte? b with
  | none =>
    rw [hk] at h
    cases h
  | some k' =>
    rw [hk] at h
    cases h
    rw [Bracket.ofByte?] at hk
    simpa using List.find?_some hk

theorem byte_of_decodeComment {b : UInt8} {c : Option CommentKind} (h : decodeComment b = .ok c) :
    (c.map CommentKind.byte).getD 0 = b := by
  rw [decodeComment] at h
  split_ifs at h with h0 h1 h2
  · cases h
    exact h0.symm
  · cases h
    exact h1.symm
  · cases h
    exact h2.symm

/-- A run that succeeds has succeeded in its first part. -/
theorem exists_of_bind {ε α β : Type} {x : Except ε α} {f : α → Except ε β} {b : β}
    (h : x >>= f = .ok b) : ∃ a, x = .ok a ∧ f a = .ok b := by
  cases x with
  | error e => cases h
  | ok a => exact ⟨a, rfl, h⟩

theorem map_byte_of_mapM : ∀ {bytes : List UInt8} {bs : List Bracket},
    bytes.mapM decodeBracket = .ok bs → bs.map Bracket.byte = bytes
  | [], bs, h => by
    cases h
    rfl
  | b :: bytes, bs, h => by
    rw [List.mapM_cons] at h
    obtain ⟨k, hk, h⟩ := exists_of_bind h
    obtain ⟨ks, hks, h⟩ := exists_of_bind h
    cases h
    rw [List.map_cons, byte_of_decodeBracket hk, map_byte_of_mapM hks]

/-- Bytes that are read have a header, and as many brackets behind it as the header says. -/
theorem header_of_decode {bytes : List UInt8} {s : State} (h : decode bytes = .ok s)
    (hne : bytes ≠ []) : ∃ m c n brackets, bytes = version :: m :: c :: n :: brackets
      ∧ decodeMode m = .ok s.mode ∧ decodeComment c = .ok s.comment
      ∧ brackets.length = n.toNat ∧ brackets.mapM decodeBracket = .ok s.stack.reverse := by
  fun_cases decode bytes with
  | case1 => exact absurd rfl hne
  | case2 v bytes hv =>
    rw [decode.eq_def] at h
    simp only [if_pos hv] at h
    cases h
  | case3 v hv m c n brackets =>
    obtain rfl := not_not.1 hv
    rw [decode, if_neg hv] at h
    obtain ⟨mode, hm, h⟩ := exists_of_bind h
    obtain ⟨comment, hc, h⟩ := exists_of_bind h
    simp only at h
    split_ifs at h with hlen
    · cases h
    obtain ⟨stack, hb, h⟩ := exists_of_bind h
    cases h
    exact ⟨m, c, n, brackets, rfl, hm, hc, not_not.1 hlen, by rw [hb, List.reverse_reverse]⟩
  | case4 v bytes hv hshort =>
    rw [decode, if_neg hv] at h
    · cases h
    · exact hshort

/-- Whatever is read but no bytes at all is what the state is written as. -/
theorem encode_of_decode {bytes : List UInt8} {s : State} (h : decode bytes = .ok s)
    (hne : bytes ≠ []) : s.encode = bytes := by
  obtain ⟨m, c, n, brackets, rfl, hm, hc, hlen, hb⟩ := header_of_decode h hne
  have hstack := map_byte_of_mapM hb
  have hcount : s.stack.reverse.length = n.toNat := by rw [← hlen, ← hstack, List.length_map]
  have hle : s.stack.reverse.length ≤ depthCeiling := by
    rw [hcount]
    exact Nat.le_of_lt_succ n.toNat_lt
  rw [encode, List.take_of_length_le hle, byte_of_decodeMode hm, byte_of_decodeComment hc, hcount,
    UInt8.ofNat_toNat, hstack]
  rfl

/-- The innermost brackets of a deep state are not written. -/
theorem encode_cut (s : State) :
    ({ s with stack := (s.stack.reverse.take 255).reverse } : State).encode = s.encode := by
  simp only [encode, depthCeiling, List.reverse_reverse, List.take_take, Nat.min_self]

/-- The bytes of a state are read back. Of a deep one the outermost 255 brackets are: the innermost
come first in a state and last in its bytes. Nothing else is read but no bytes at all, which stand
for the state in front of a text. -/
theorem decode_exact :
    (∀ s : State, s.depth ≤ 255 → decode s.encode = .ok s)
      ∧ (∀ s : State, 255 < s.depth →
        decode s.encode = .ok { s with stack := (s.stack.reverse.take 255).reverse })
      ∧ (∀ bytes s, decode bytes = .ok s → bytes = [] ∧ s = {} ∨ s.encode = bytes)
      ∧ (∀ bytes, (∃ s, decode bytes = .ok s) ↔ bytes = [] ∨ ∃ s : State, s.encode = bytes)
      ∧ ∀ bytes, (∃ e, decode bytes = .error e) ↔ bytes ≠ [] ∧ ∀ s : State, s.encode ≠ bytes := by
  have hdeep (s : State) :
      decode s.encode = .ok { s with stack := (s.stack.reverse.take 255).reverse } := by
    rw [← encode_cut]
    refine decode_encode ?_
    rw [depth, List.length_reverse]
    exact List.length_take_le _ _
  have hback (bytes : List UInt8) (s : State) (h : decode bytes = .ok s) :
      bytes = [] ∧ s = {} ∨ s.encode = bytes := by
    rcases eq_or_ne bytes [] with rfl | hne
    · cases h
      exact .inl ⟨rfl, rfl⟩
    · exact .inr (encode_of_decode h hne)
  have haccepts (bytes : List UInt8) :
      (∃ s, decode bytes = .ok s) ↔ bytes = [] ∨ ∃ s : State, s.encode = bytes := by
    constructor
    · rintro ⟨s, h⟩
      exact (hback bytes s h).imp And.left fun h => ⟨s, h⟩
    · rintro (rfl | ⟨s, rfl⟩)
      · exact ⟨{}, rfl⟩
      · exact ⟨_, hdeep s⟩
  refine ⟨fun s => decode_encode, fun s _ => hdeep s, hback, haccepts, fun bytes => ?_⟩
  rw [← not_exists, ← not_or, ← haccepts]
  cases decode bytes <;> simp

theorem decode_exact_deep :
    let s : State := ⟨.idl, .paren :: List.replicate 255 .brace, some .doc⟩
    255 < s.depth ∧ decode s.encode = .ok ⟨.idl, List.replicate 255 .brace, some .doc⟩ := by
  intro s
  have hdepth : 255 < s.depth := by
    rw [depth, List.length_cons, List.length_replicate]
    exact Nat.lt_succ_self 255
  refine ⟨hdepth, (decode_exact.2.1 s hdepth).trans ?_⟩
  rw [List.reverse_cons, List.reverse_replicate, List.take_left' List.length_replicate,
    List.reverse_replicate]

end State

end Lexer

end AvroTree
