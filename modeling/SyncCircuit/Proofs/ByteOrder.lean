import Mathlib.Data.String.Basic
import SyncCircuit.Proofs.Positions

/-!
The order of texts is the order of their bytes. The code of a character begins with a byte that
tells its length, and longer codes begin with greater bytes; the bytes that follow hold the number
of the character in base 64, the highest digit first. So of two codes the smaller one is smaller in
a byte that both have, whatever comes after them.
-/

namespace SyncCircuit

namespace Text

variable {c d : Char} {k m n : ℕ} {u v : List UInt8} {x y : String}

/-- How many bytes follow the first one in the code of a number. -/
def following (n : ℕ) : ℕ :=
  if n ≤ 127 then 0 else if n ≤ 2047 then 1 else if n ≤ 65535 then 2 else 3

def leading (n : ℕ) : ℕ :=
  if n ≤ 127 then n else if n ≤ 2047 then n / 64 + 192 else if n ≤ 65535 then n / 4096 + 224
  else n / 262144 + 240

/-- The last `k` bytes of a code, each with a digit of the number in base 64. -/
def trailing : ℕ → ℕ → List UInt8
  | 0, _ => []
  | k + 1, n => UInt8.ofNat (n / 64 ^ k % 64 + 128) :: trailing k n

theorem toNat_lt (c : Char) : c.toNat < 1114112 := by
  have h : c.toNat < 55296 ∨ 57343 < c.toNat ∧ c.toNat < 1114112 := c.valid
  omega

theorem leading_lt (h : n < 1114112) : leading n < 256 := by
  unfold leading
  split_ifs <;> omega

theorem utf8EncodeChar_eq (c : Char) : String.utf8EncodeChar c =
    UInt8.ofNat (leading c.toNat) :: trailing (following c.toNat) c.toNat := by
  have hlt := toNat_lt c
  -- The library cuts the first byte to its width, which such a number does not exceed.
  simp only [String.utf8EncodeChar, leading, following, Char.toNat_val]
  generalize c.toNat = n at hlt ⊢
  split_ifs with h₁ h₂ h₃
  · rfl
  · rw [Nat.mod_eq_of_lt (show n / 64 < 32 by omega)]
    simp [trailing]
  · rw [Nat.mod_eq_of_lt (show n / 4096 < 16 by omega)]
    simp [trailing]
  · rw [Nat.mod_eq_of_lt (show n / 262144 < 8 by omega)]
    simp [trailing]

theorem ofNat_cons_lt (hm : m < 256) (hn : n < 256) :
    UInt8.ofNat m :: u < UInt8.ofNat n :: v ↔ m < n ∨ m = n ∧ u < v := by
  rw [List.cons_lt_cons_iff, UInt8.lt_iff_toNat_lt, ← UInt8.toNat_inj,
    UInt8.toNat_ofNat_of_lt' hm, UInt8.toNat_ofNat_of_lt' hn]

/-- Numbers that agree but for their last `k` digits in base 64 differ within these. -/
theorem trailing_append_lt (hlt : m < n) (heq : m / 64 ^ k = n / 64 ^ k) :
    trailing k m ++ u < trailing k n ++ v := by
  induction k with
  | zero =>
    rw [Nat.pow_zero, Nat.div_one, Nat.div_one] at heq
    exact absurd heq hlt.ne
  | succ k ih =>
    have hle : m / 64 ^ k ≤ n / 64 ^ k := Nat.div_le_div_right hlt.le
    rw [Nat.pow_succ, ← Nat.div_div_eq_div_mul, ← Nat.div_div_eq_div_mul] at heq
    rw [trailing, trailing, List.cons_append, List.cons_append,
      ofNat_cons_lt (by omega) (by omega)]
    rcases hle.lt_or_eq with hk | hk
    · exact .inl (by omega)
    · exact .inr ⟨by rw [hk], ih hk⟩

/-- Numbers whose codes begin with the same byte differ in digits that the other bytes hold. -/
theorem leading_lt_or (h : m < n) : leading m < leading n ∨ leading m = leading n ∧
    following m = following n ∧ m / 64 ^ following m = n / 64 ^ following m := by
  unfold leading following
  split_ifs <;> omega

theorem utf8EncodeChar_append_lt (h : c < d) :
    String.utf8EncodeChar c ++ u < String.utf8EncodeChar d ++ v := by
  have hlt : c.toNat < d.toNat := h
  rw [utf8EncodeChar_eq, utf8EncodeChar_eq, List.cons_append, List.cons_append,
    ofNat_cons_lt (leading_lt (toNat_lt c)) (leading_lt (toNat_lt d))]
  rcases leading_lt_or hlt with hleading | ⟨heq, hfollowing, hdigits⟩
  · exact .inl hleading
  · rw [← hfollowing]
    exact .inr ⟨heq, trailing_append_lt hlt hdigits⟩

theorem flatMap_utf8EncodeChar_lt {cs ds : List Char} (h : cs < ds) :
    cs.flatMap String.utf8EncodeChar < ds.flatMap String.utf8EncodeChar := by
  induction h with
  | @nil d ds =>
    obtain ⟨b, bs, hd⟩ := List.exists_cons_of_ne_nil (String.utf8EncodeChar_ne_nil (c := d))
    rw [List.flatMap_nil, List.flatMap_cons, hd]
    exact .nil
  | rel h => exact utf8EncodeChar_append_lt h
  | cons _ ih => exact List.append_left_lt ih

theorem bytes_lt (h : x < y) : bytes x < bytes y := by
  rw [bytes_eq, bytes_eq]
  exact flatMap_utf8EncodeChar_lt (String.lt_iff_toList_lt.mp h)

theorem bytes_lt_iff : bytes x < bytes y ↔ x < y := by
  refine ⟨fun h => ?_, bytes_lt⟩
  rcases lt_trichotomy x y with hlt | rfl | hgt
  · exact hlt
  · exact absurd h (List.lt_irrefl _)
  · exact absurd h (List.lt_asymm (bytes_lt hgt))

theorem bytes_le_iff : bytes x ≤ bytes y ↔ x ≤ y := by
  rw [← List.not_lt, bytes_lt_iff, not_lt]

end Text

end SyncCircuit
