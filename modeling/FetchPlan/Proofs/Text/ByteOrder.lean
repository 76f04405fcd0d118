import FetchPlan.Text.ByteOrder
import Mathlib.Tactic.SplitIfs

/-!
# The order of bytes is the order of characters

Texts compare by their bytes as they compare by their characters (`compareBytes_eq_compare`): of two
characters the smaller one has the smaller bytes, whatever comes after them (`compare_encode`).
-/

namespace FetchPlan

open Std

theorem utf8Bytes_eq (s : String) : utf8Bytes s = s.toList.flatMap String.utf8EncodeChar := by
  obtain ⟨l, rfl⟩ : ∃ l, s = String.ofList l := ⟨s.toList, String.ofList_toList.symm⟩
  rw [utf8Bytes, String.toUTF8_eq_toByteArray, String.toByteArray_ofList, List.utf8Encode,
    List.data_toByteArray, String.toList_ofList]

/-- Bytes compare as the digits that they hold above the same number. -/
theorem compare_byte {m n k : Nat} (hm : m + k < 256) (hn : n + k < 256) :
    compare (UInt8.ofNat (m + k)) (UInt8.ofNat (n + k)) = compare m n := by
  have htoNat : ∀ {i : Nat}, i < 256 → (UInt8.ofNat i).toNat = i := fun h => by
    rw [UInt8.toNat_ofNat', Nat.mod_eq_of_lt h]
  have hlt : UInt8.ofNat (m + k) < UInt8.ofNat (n + k) ↔ m < n := by
    rw [UInt8.lt_iff_toNat_lt, htoNat hm, htoNat hn, Nat.add_lt_add_iff_right]
  have heq : UInt8.ofNat (m + k) = UInt8.ofNat (n + k) ↔ m = n := by
    rw [← UInt8.toNat_inj, htoNat hm, htoNat hn, Nat.add_right_cancel_iff]
  show compareOfLessAndEq _ _ = compareOfLessAndEq _ _
  simp only [compareOfLessAndEq, hlt, heq]

/-- The smaller one of two characters has the smaller bytes, and they differ before either ends. -/
theorem compare_encode {c d : Char} (h : c < d) (u v : List UInt8) :
    compare (String.utf8EncodeChar c ++ u) (String.utf8EncodeChar d ++ v) = .lt := by
  have hlt : c.val.toNat < d.val.toNat := h
  have hbound : d.val.toNat < 0x110000 := by
    rcases d.valid with hd | ⟨-, hd⟩
    · exact Nat.lt_trans hd (by decide)
    · exact hd
  generalize hm : c.val.toNat = m at hlt
  generalize hn : d.val.toNat = n at hlt hbound
  -- The first digit to the base 64 in which the characters differ decides.
  have htwo : m / 64 < n / 64 ∨ m / 64 = n / 64 ∧ m % 64 < n % 64 := by omega
  have hthree : m / 4096 < n / 4096 ∨
      m / 4096 = n / 4096 ∧ m / 64 % 64 < n / 64 % 64 ∨ m / 64 = n / 64 := by omega
  have hfour : m / 262144 < n / 262144 ∨
      m / 262144 = n / 262144 ∧ m / 4096 % 64 < n / 4096 % 64 ∨ m / 4096 = n / 4096 := by omega
  -- Characters with more bytes are greater, and so are their first bytes.
  simp only [String.utf8EncodeChar, hm, hn]
  split_ifs <;>
    simp (disch := omega) only [List.cons_append, List.nil_append, List.compare_cons_cons,
      Ordering.then_eq_lt, compare_byte, Nat.compare_eq_eq, Std.compare_eq_lt,
      UInt8.lt_iff_toNat_lt, UInt8.toNat_ofNat', Nat.mod_eq_of_lt] <;>
    omega

theorem compare_append_left (p l m : List UInt8) : compare (p ++ l) (p ++ m) = compare l m := by
  induction p with
  | nil => rfl
  | cons x p ih =>
    have hx : compare x x = .eq := ReflOrd.compare_self
    rw [List.cons_append, List.cons_append, List.compare_cons_cons, hx, ih, Ordering.eq_then]

theorem compare_flatMap_encode {l m : List Char} (h : l < m) :
    compare (l.flatMap String.utf8EncodeChar) (m.flatMap String.utf8EncodeChar) = .lt := by
  induction h with
  | @nil c m =>
    obtain ⟨x, bytes, hbytes⟩ := List.exists_cons_of_ne_nil (String.utf8EncodeChar_ne_nil (c := c))
    rw [List.flatMap_cons, hbytes]
    rfl
  | rel h =>
    rw [List.flatMap_cons, List.flatMap_cons]
    exact compare_encode h _ _
  | cons h ih =>
    rw [List.flatMap_cons, List.flatMap_cons, compare_append_left]
    exact ih

theorem compareBytes_eq_lt {s t : String} (h : s < t) : compareBytes s t = .lt := by
  rw [compareBytes, utf8Bytes_eq, utf8Bytes_eq]
  exact compare_flatMap_encode (String.lt_iff.1 h)

theorem compareBytes_eq_compare (s t : String) : compareBytes s t = compare s t := by
  have hcompare : ∀ {s t : String}, s < t → compare s t = .lt := compareOfLessAndEq_eq_lt.2
  rcases Std.lt_trichotomy s t with h | rfl | h
  · rw [compareBytes_eq_lt h, hcompare h]
  · rw [compareBytes, ReflOrd.compare_self, ReflOrd.compare_self]
  · have hbytes : compare (utf8Bytes t) (utf8Bytes s) = .lt := compareBytes_eq_lt h
    rw [compareBytes, OrientedCmp.gt_of_lt hbytes, OrientedCmp.gt_of_lt (hcompare h)]

end FetchPlan
