import Mathlib.Data.List.Basic
import Patchwork.Text.Octets
import Patchwork.Tree.Basic

/-!
# Octets of a text are read back

The octets of a character are whole wherever they stand, so octets that encode a text are read as
that text, with nothing replaced (`readLossy_ofText`). Texts are in the order of their octets
(`octets_lt_of_lt`).
-/
namespace Patchwork.Text

/-! ## What follows a first octet -/

def following : UInt8 × UInt8 := (0x80, 0xbf)

private theorem followers_one : ∀ n < 0x80, followers (UInt8.ofNat n) = some [] := by decide

private theorem followers_two : ∀ n < 0xe0, 0xc2 ≤ n →
    followers (UInt8.ofNat n) = some [following] := by
  decide +kernel

private theorem followers_three : ∀ n < 0xf0, 0xe0 ≤ n → followers (UInt8.ofNat n) =
    some [(if n = 0xe0 then 0xa0 else 0x80, if n = 0xed then 0x9f else 0xbf), following] := by
  decide +kernel

private theorem followers_four : ∀ n < 0xf5, 0xf0 ≤ n → followers (UInt8.ofNat n) =
    some [(if n = 0xf0 then 0x90 else 0x80, if n = 0xf4 then 0x8f else 0xbf),
      following, following] := by
  decide +kernel

theorem continueHead_append {read : Nat} {ranges : List (UInt8 × UInt8)} {bs : List UInt8}
    (h : List.Forall₂ (fun r b => r.1 ≤ b ∧ b ≤ r.2) ranges bs) (rest : List UInt8) :
    continueHead read ranges (bs ++ rest) = .whole (read + bs.length) := by
  induction h generalizing read with
  | nil => rfl
  | cons hb _ ih =>
    rw [List.cons_append, continueHead, if_pos (by simpa using hb), ih, List.length_cons]
    congr 1
    omega

/-- A first octet and what may follow it are read as one character. -/
theorem readLossy_cons_append {b : UInt8} {bs : List UInt8} {ranges : List (UInt8 × UInt8)}
    (hranges : followers b = some ranges)
    (h : List.Forall₂ (fun r b => r.1 ≤ b ∧ b ≤ r.2) ranges bs) (rest : List UInt8) :
    readLossy (b :: bs ++ rest) = charOfOctets b bs :: readLossy rest := by
  have hhead : sequenceHead b (bs ++ rest) = .whole (1 + bs.length) := by
    rw [sequenceHead, hranges]
    exact continueHead_append h rest
  rw [List.cons_append, readLossy, hhead]
  simp

theorem following_ofNat (n : Nat) :
    following.1 ≤ UInt8.ofNat (n % 64 + 128) ∧ UInt8.ofNat (n % 64 + 128) ≤ following.2 := by
  simp only [following, UInt8.le_iff_toNat_le, UInt8.toNat_ofNat', UInt8.reduceToNat]
  omega

/-- The octets of a character are read as it, whatever follows. -/
theorem readLossy_utf8EncodeChar_append (c : Char) (rest : List UInt8) :
    readLossy (String.utf8EncodeChar c ++ rest) = c :: readLossy rest := by
  have hvalid : c.toNat < 0xd800 ∨ 0xdfff < c.toNat ∧ c.toNat < 0x110000 := c.valid
  have hval : c.val.toNat = c.toNat := rfl
  have hchar : Char.ofNat c.toNat = c := Char.ofNat_toNat c
  unfold String.utf8EncodeChar
  rw [hval]
  generalize c.toNat = v at hvalid hchar
  subst hchar
  dsimp only
  split
  · rw [readLossy_cons_append (followers_one v (by omega)) .nil]
    rw [charOfOctets]
    congr 2
    simp
    omega
  · split
    · have hfirst := followers_two (v / 64 % 32 + 192) (by omega) (by omega)
      rw [readLossy_cons_append hfirst (.cons (following_ofNat v) .nil)]
      rw [charOfOctets]
      congr 2
      simp
      omega
    · split
      · have hfirst := followers_three (v / 4096 % 16 + 224) (by omega) (by omega)
        rw [readLossy_cons_append hfirst (.cons ?_ (.cons (following_ofNat v) .nil))]
        · rw [charOfOctets]
          congr 2
          simp
          omega
        · -- a small number would fit into two octets, and the surrogates are no characters
          simp only [UInt8.le_iff_toNat_le, UInt8.toNat_ofNat', apply_ite UInt8.toNat,
            UInt8.reduceToNat]
          split_ifs <;> omega
      · have hfirst := followers_four (v / 262144 % 8 + 240) (by omega) (by omega)
        rw [readLossy_cons_append hfirst
          (.cons ?_ (.cons (following_ofNat (v / 64)) (.cons (following_ofNat v) .nil)))]
        · rw [charOfOctets]
          congr 2
          simp
          omega
        · simp only [UInt8.le_iff_toNat_le, UInt8.toNat_ofNat', apply_ite UInt8.toNat,
            UInt8.reduceToNat]
          split_ifs <;> omega

theorem readLossy_flatMap_utf8EncodeChar (cs : List Char) :
    readLossy (cs.flatMap String.utf8EncodeChar) = cs := by
  induction cs with
  | nil => rw [List.flatMap_nil, readLossy]
  | cons c cs ih => rw [List.flatMap_cons, readLossy_utf8EncodeChar_append, ih]

theorem toList_loop (bytes : ByteArray) (i : Nat) (read : List UInt8) :
    ByteArray.toList.loop bytes i read = read.reverse ++ bytes.data.toList.drop i := by
  fun_induction ByteArray.toList.loop bytes i read with
  | case1 i read h ih =>
    have hi : i < bytes.data.toList.length := h
    rw [ih, List.reverse_cons, List.append_assoc, List.drop_eq_getElem_cons hi,
      List.singleton_append, Array.getElem_toList, ByteArray.get!]
    simp [h]
  | case2 i read h =>
    have hi : bytes.data.toList.length ≤ i := Nat.not_lt.1 h
    rw [List.drop_of_length_le hi, List.append_nil]

theorem toList_ofText (s : String) :
    (Content.ofText s).toList = s.toList.flatMap String.utf8EncodeChar := by
  rw [ByteArray.toList, toList_loop, Content.ofText, String.toUTF8_eq_toByteArray,
    ← String.utf8Encode_toList, List.utf8Encode, List.toList_data_toByteArray]
  rfl

theorem readLossy_ofText (s : String) : readLossy (Content.ofText s).toList = s.toList := by
  rw [toList_ofText, readLossy_flatMap_utf8EncodeChar]

/-! ## The order of octets -/

/-- The octets of the smaller of two characters come first, whatever follows. -/
theorem utf8EncodeChar_append_lt {c c' : Char} (h : c < c') (bs bs' : List UInt8) :
    String.utf8EncodeChar c ++ bs < String.utf8EncodeChar c' ++ bs' := by
  have hlt : c.val.toNat < c'.val.toNat := h
  have hvalid : c'.val.toNat < 0x110000 := by
    rcases c'.valid with h | h
    · exact Nat.lt_trans h (by decide)
    · exact h.2
  unfold String.utf8EncodeChar
  generalize c.val.toNat = v at *
  generalize c'.val.toNat = w at *
  -- Each digit decides where those in front of it are the same.
  have hlast : v / 64 < w / 64 ∨ v / 64 = w / 64 ∧ v % 64 < w % 64 := by omega
  have hmiddle : v / 64 < w / 64 →
      v / 4096 < w / 4096 ∨ v / 4096 = w / 4096 ∧ v / 64 % 64 < w / 64 % 64 := by
    omega
  have hfirst : v / 4096 < w / 4096 →
      v / 262144 < w / 262144 ∨ v / 262144 = w / 262144 ∧ v / 4096 % 64 < w / 4096 % 64 := by
    omega
  dsimp only
  split_ifs <;>
    simp (disch := omega) only [List.cons_append, List.cons_lt_cons_iff, UInt8.lt_iff_toNat_lt,
      ← UInt8.toNat_inj, UInt8.toNat_ofNat', Nat.mod_eq_of_lt] <;>
    omega

theorem flatMap_utf8EncodeChar_lt {cs cs' : List Char} (h : cs < cs') :
    cs.flatMap String.utf8EncodeChar < cs'.flatMap String.utf8EncodeChar := by
  induction cs generalizing cs' with
  | nil =>
    cases cs' with
    | nil => exact absurd h (List.lt_irrefl [])
    | cons c cs' =>
      obtain ⟨b, bs, hc⟩ := List.exists_cons_of_ne_nil (String.utf8EncodeChar_ne_nil (c := c))
      rw [List.flatMap_cons, hc]
      exact List.nil_lt_cons _ _
  | cons c cs ih =>
    cases cs' with
    | nil => exact absurd h (List.not_lt_nil _)
    | cons c' cs' =>
      rw [List.flatMap_cons, List.flatMap_cons]
      rcases List.cons_lt_cons_iff.1 h with hc | ⟨rfl, hrest⟩
      · exact utf8EncodeChar_append_lt hc _ _
      · exact List.append_left_lt (ih hrest)

theorem octets_lt_of_lt {a b : String} (h : a < b) :
    (Content.ofText a).toList < (Content.ofText b).toList := by
  rw [toList_ofText, toList_ofText]
  exact flatMap_utf8EncodeChar_lt (String.lt_iff.1 h)

end Patchwork.Text
