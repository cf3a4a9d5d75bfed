import Changeover.Sha256

/-!
# What a digest tells of a text

The hexadecimal digits of a digest give its bytes, and the bytes of a text give the text. So texts
with one digest are the same, unless their bytes are a collision.
-/

namespace Changeover

/-- The bytes of an array that are not read yet follow those that were, which are kept reversed. -/
theorem toList_loop (bytes : ByteArray) (i : Nat) (read : List UInt8) :
    ByteArray.toList.loop bytes i read = read.reverse ++ bytes.data.toList.drop i := by
  induction i, read using ByteArray.toList.loop.induct bytes with
  | case1 i read hi ih =>
    have hlength : i < bytes.data.toList.length := by simpa using hi
    have hbyte : bytes.get! i = bytes.data.toList[i] := by
      rw [Array.getElem_toList]
      exact getElem!_pos bytes.data i (by simpa using hi)
    rw [ByteArray.toList.loop, if_pos hi, ih, List.drop_eq_getElem_cons hlength, hbyte]
    simp
  | case2 i read hi =>
    have hlength : bytes.data.toList.length ≤ i := by simpa using hi
    rw [ByteArray.toList.loop, if_neg hi, List.drop_eq_nil_of_le hlength, List.append_nil]

theorem toUTF8_toList_inj {s t : String} (h : s.toUTF8.toList = t.toUTF8.toList) : s = t := by
  rw [ByteArray.toList, ByteArray.toList, toList_loop, toList_loop] at h
  apply String.toByteArray_inj.mp
  apply ByteArray.ext
  apply Array.toList_inj.mp
  simpa using h

namespace Sha256

/-- Two messages with one digest. -/
def Collision (a b : List UInt8) : Prop := a ≠ b ∧ digest a = digest b

instance (a b : List UInt8) : Decidable (Collision a b) := inferInstanceAs (Decidable (_ ∧ _))

theorem hexDigit_inj : ∀ m < 16, ∀ n < 16, hexDigit m = hexDigit n → m = n := by
  decide

theorem hex_inj {a b : List UInt8} (h : hex a = hex b) : a = b := by
  have hdigits := String.ofList_inj.mp h
  clear h
  induction a generalizing b with
  | nil =>
    cases b with
    | nil => rfl
    | cons y b => cases hdigits
  | cons x a ih =>
    cases b with
    | nil => cases hdigits
    | cons y b =>
      simp only [List.flatMap_cons, List.cons_append, List.nil_append, List.cons.injEq] at hdigits
      obtain ⟨hhigh, hlow, hrest⟩ := hdigits
      have hx := x.toNat_lt
      have hy := y.toNat_lt
      have hhigh := hexDigit_inj _ (by omega) _ (by omega) hhigh
      have hlow := hexDigit_inj _ (by omega) _ (by omega) hlow
      have hbyte : x = y := UInt8.toNat_inj.mp (by omega)
      rw [hbyte, ih hrest]

theorem eq_or_collision {s t : String} (h : ofText s = ofText t) :
    s = t ∨ Collision s.toUTF8.toList t.toUTF8.toList := by
  by_cases hbytes : s.toUTF8.toList = t.toUTF8.toList
  · exact .inl (toUTF8_toList_inj hbytes)
  · exact .inr ⟨hbytes, hex_inj h⟩

end Sha256

end Changeover
