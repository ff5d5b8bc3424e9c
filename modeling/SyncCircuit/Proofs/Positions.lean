import Mathlib.Data.List.DropRight
import SyncCircuit.Proofs.Lexing
import SyncCircuit.Source

/-!
Offsets as lines and columns. A place is found by passing whole lines, whose lengths are known; it
is the place that counting byte by byte comes to. Later offsets are at later places, also past the
end, and 64 bits suffice to find them.
-/

namespace SyncCircuit

open Text (byteCount)

def lineFeed : UInt8 := 10

def Text.bytes (text : String) : List UInt8 := text.toUTF8.data.toList

namespace Position

def after (bytes : List UInt8) : Position :=
  ⟨1 + bytes.count lineFeed, 1 + (bytes.rtakeWhile (· ≠ lineFeed)).length⟩

def next (p : Position) (b : UInt8) : Position :=
  if b = lineFeed then ⟨p.line + 1, 1⟩ else ⟨p.line, p.column + 1⟩

def Before (p q : Position) : Prop := p.line < q.line ∨ p.line = q.line ∧ p.column < q.column

theorem after_concat (bytes : List UInt8) (b : UInt8) :
    after (bytes ++ [b]) = (after bytes).next b := by
  by_cases hb : b = lineFeed <;> simp [after, next, hb, Nat.add_assoc]

theorem foldl_next (bytes : List UInt8) : bytes.foldl next ⟨1, 1⟩ = after bytes := by
  induction bytes using List.reverseRecOn with
  | nil => rfl
  | append_singleton bytes b ih => rw [List.foldl_concat, ih, after_concat]

theorem foldl_next_of_notMem {bytes : List UInt8} (h : lineFeed ∉ bytes) (line column : ℕ) :
    bytes.foldl next ⟨line, column⟩ = ⟨line, column + bytes.length⟩ := by
  induction bytes generalizing column with
  | nil => rfl
  | cons b bytes ih =>
    rw [List.mem_cons, not_or] at h
    rw [List.foldl_cons, next, if_neg (Ne.symm h.1), ih h.2, List.length_cons, Nat.add_assoc,
      Nat.add_comm 1]

end Position

section encoding

theorem Text.bytes_eq (text : String) :
    Text.bytes text = text.toList.flatMap String.utf8EncodeChar := by
  rw [bytes, String.toUTF8_eq_toByteArray, ← String.utf8Encode_toList, List.utf8Encode,
    List.data_toByteArray]

/-- No byte of any other character ends a line. -/
theorem lineFeed_notMem {c : Char} (h : c ≠ '\n') : lineFeed ∉ String.utf8EncodeChar c := by
  have hval : c.val.toNat ≠ 10 := fun hv => h (Char.ext (UInt32.toNat_inj.mp hv))
  have other : ∀ n, n < 256 → n ≠ 10 → lineFeed ≠ UInt8.ofNat n := by
    intro n hn hne heq
    rw [← UInt8.toNat_inj, UInt8.toNat_ofNat_of_lt' hn] at heq
    exact hne heq.symm
  unfold String.utf8EncodeChar
  dsimp only
  split_ifs <;> simp only [List.mem_cons, List.not_mem_nil, or_false, not_or]
  · exact other _ (by omega) hval
  · exact ⟨other _ (by omega) (by omega), other _ (by omega) (by omega)⟩
  · exact ⟨other _ (by omega) (by omega), other _ (by omega) (by omega),
      other _ (by omega) (by omega)⟩
  · exact ⟨other _ (by omega) (by omega), other _ (by omega) (by omega),
      other _ (by omega) (by omega), other _ (by omega) (by omega)⟩

end encoding

namespace Source

variable {line offset current : ℕ} {cs : List Char} {lengths : List ℕ}

theorem lineLengths_eq_cons (current : ℕ) (cs : List Char) :
    ∃ length rest, lineLengths current cs = length :: rest ∧ current < length := by
  induction cs generalizing current with
  | nil => exact ⟨_, _, rfl, Nat.lt_succ_self current⟩
  | cons c cs ih =>
    unfold lineLengths
    split
    · exact ⟨_, _, rfl, Nat.lt_succ_self current⟩
    · obtain ⟨length, rest, hl, hlt⟩ := ih (current + c.utf8Size)
      exact ⟨length, rest, hl, by omega⟩

theorem locate_of_le (line : ℕ) (cs : List Char) (h : offset ≤ current) :
    locate line (lineLengths current cs) offset = ⟨line, offset + 1⟩ := by
  obtain ⟨length, rest, hl, hlt⟩ := lineLengths_eq_cons current cs
  rw [hl, locate, if_neg (by omega)]

/-- To pass lines is to pass their bytes one by one. -/
theorem locate_lineLengths (line current : ℕ) {cs : List Char} {k : ℕ} (hk : k ≤ byteCount cs) :
    locate line (lineLengths current cs) (current + k) =
      ((cs.flatMap String.utf8EncodeChar).take k).foldl Position.next ⟨line, current + 1⟩ := by
  induction cs generalizing line current k with
  | nil =>
    obtain rfl : k = 0 := Nat.le_zero.mp hk
    exact locate_of_le line [] le_rfl
  | cons c cs ih =>
    rw [List.flatMap_cons]
    rw [Text.byteCount_cons] at hk
    by_cases hc : c = '\n'
    · subst hc
      have hbyte : String.utf8EncodeChar '\n' = [lineFeed] := by decide
      have hsize : '\n'.utf8Size = 1 := rfl
      rw [lineLengths, if_pos rfl, hbyte, List.singleton_append]
      cases k with
      | zero => rw [locate, if_neg (by omega)]; rfl
      | succ k =>
        have hrest : current + (k + 1) - (current + 1) = 0 + k := by omega
        rw [locate, if_pos (by omega), hrest, ih (line + 1) 0 (by omega)]
        rfl
    · have hsize := String.length_utf8EncodeChar c
      rw [lineLengths, if_neg hc]
      by_cases hle : k ≤ c.utf8Size
      · have hno : lineFeed ∉ (String.utf8EncodeChar c).take k :=
          fun hm => lineFeed_notMem hc (List.mem_of_mem_take hm)
        rw [locate_of_le line cs (by omega), List.take_append_of_le_length (by omega),
          Position.foldl_next_of_notMem hno, List.length_take, hsize, Nat.min_eq_left hle]
        exact congrArg (Position.mk line) (by omega)
      · obtain ⟨j, rfl⟩ := Nat.exists_eq_add_of_le (Nat.le_of_not_le hle)
        rw [← Nat.add_assoc, ih line (current + c.utf8Size) (by omega), ← hsize,
          List.take_length_add_append, List.foldl_append,
          Position.foldl_next_of_notMem (lineFeed_notMem hc)]
        exact congrArg (List.foldl _ · _) (congrArg (Position.mk line) (by omega))

theorem line_le_locate (line : ℕ) (lengths : List ℕ) (offset : ℕ) :
    line ≤ (locate line lengths offset).line := by
  induction lengths generalizing line offset with
  | nil => exact le_rfl
  | cons length rest ih =>
    unfold locate
    split
    · exact (Nat.le_succ line).trans (ih (line + 1) (offset - length))
    · exact le_rfl

theorem locate_before (line : ℕ) (lengths : List ℕ) {p q : ℕ} (h : p < q) :
    (locate line lengths p).Before (locate line lengths q) := by
  induction lengths generalizing line p q with
  | nil => exact .inr ⟨rfl, by simpa [locate] using h⟩
  | cons length rest ih =>
    by_cases hp : length ≤ p
    · rw [locate, locate, if_pos hp, if_pos (by omega)]
      exact ih (line + 1) (by omega)
    · rw [locate, if_neg hp]
      by_cases hq : length ≤ q
      · rw [locate, if_pos hq]
        exact .inl (line_le_locate (line + 1) rest (q - length))
      · rw [locate, if_neg hq]
        exact .inr ⟨rfl, Nat.succ_lt_succ h⟩

theorem bounds_lineLengths (current : ℕ) (cs : List Char) :
    ∀ n ∈ lineLengths current cs, 0 < n ∧ n ≤ current + byteCount cs + 1 := by
  induction cs generalizing current with
  | nil => simp [lineLengths]
  | cons c cs ih =>
    rw [Text.byteCount_cons, lineLengths]
    split
    · refine List.forall_mem_cons.mpr ⟨⟨Nat.succ_pos current, by omega⟩, fun n hn => ?_⟩
      obtain ⟨hpos, hle⟩ := ih 0 n hn
      exact ⟨hpos, by omega⟩
    · intro n hn
      obtain ⟨hpos, hle⟩ := ih (current + c.utf8Size) n hn
      exact ⟨hpos, by omega⟩

theorem length_lineLengths (current : ℕ) (cs : List Char) :
    (lineLengths current cs).length ≤ byteCount cs + 1 := by
  induction cs generalizing current with
  | nil => exact le_rfl
  | cons c cs ih =>
    have hpos := c.utf8Size_pos
    rw [Text.byteCount_cons, lineLengths]
    split
    · have := ih 0
      rw [List.length_cons]
      omega
    · have := ih (current + c.utf8Size)
      omega

section words

/-- The sum of two words of 64 bits, unless it overflows. -/
def sum? (a b : UInt64) : Option UInt64 :=
  if a.toNat + b.toNat < UInt64.size then some (a + b) else none

def numbers? (line column : UInt64) : Option (UInt64 × UInt64) :=
  (sum? line 1).bind fun line => (sum? column 1).map fun column => (line, column)

/-- The place of an offset, found in words of 64 bits. -/
def locate64? (line : UInt64) : List UInt64 → UInt64 → Option (UInt64 × UInt64)
  | [], offset => numbers? line offset
  | length :: rest, offset =>
    if length ≤ offset then (sum? line 1).bind fun line => locate64? line rest (offset - length)
    else numbers? line offset

theorem sum?_one {a : UInt64} (h : a.toNat + 1 < UInt64.size) :
    ∃ b, sum? a 1 = some b ∧ b.toNat = a.toNat + 1 := by
  refine ⟨a + 1, if_pos h, ?_⟩
  rw [UInt64.toNat_add]
  exact Nat.mod_eq_of_lt h

theorem numbers?_eq {line column : UInt64} (hl : line.toNat + 1 < UInt64.size)
    (hc : column.toNat + 1 < UInt64.size) : ∃ l c, numbers? line column = some (l, c) ∧
      l.toNat = line.toNat + 1 ∧ c.toNat = column.toNat + 1 := by
  obtain ⟨l, hl, hline⟩ := sum?_one hl
  obtain ⟨c, hc, hcolumn⟩ := sum?_one hc
  exact ⟨l, c, by simp [numbers?, hl, hc], hline, hcolumn⟩

/-- Only an offset before which no line has been passed can be the greatest word, and then it is
within the first line. -/
theorem locate64?_eq {line : UInt64} {lengths : List UInt64} (offset : UInt64)
    (hpos : ∀ n ∈ lengths, 0 < n.toNat) (hline : line.toNat + lengths.length + 1 < UInt64.size)
    (hoffset : lengths = [] → offset.toNat + 1 < UInt64.size) :
    ∃ l c, locate64? line lengths offset = some (l, c) ∧
      locate (line.toNat + 1) (lengths.map UInt64.toNat) offset.toNat = ⟨l.toNat, c.toNat⟩ := by
  induction lengths generalizing line offset with
  | nil =>
    obtain ⟨l, c, hn, hl, hc⟩ := numbers?_eq hline (hoffset rfl)
    exact ⟨l, c, hn, by rw [hl, hc]; rfl⟩
  | cons length rest ih =>
    obtain ⟨hlength, hpos⟩ := List.forall_mem_cons.mp hpos
    rw [List.length_cons] at hline
    have hword := offset.toNat_lt_size
    rw [List.map_cons, locate64?, locate]
    by_cases hle : length ≤ offset
    · have hnat := UInt64.le_iff_toNat_le.mp hle
      obtain ⟨next, hs, hnext⟩ := sum?_one (a := line) (by omega)
      have hrest := UInt64.toNat_sub_of_le _ _ hle
      obtain ⟨l, c, hl, hc⟩ := @ih next (offset - length) hpos (by omega) (fun _ => by omega)
      rw [if_pos hle, if_pos hnat, hs, ← hrest, ← hnext]
      exact ⟨l, c, hl, hc⟩
    · have hnat := mt UInt64.le_iff_toNat_le.mpr hle
      obtain ⟨l, c, hn, hl, hc⟩ := @numbers?_eq line offset (by omega)
        (by have := length.toNat_lt_size; omega)
      rw [if_neg hle, if_neg hnat, ← hl, ← hc]
      exact ⟨l, c, hn, rfl⟩

end words

/-- What is to be known about the places in a text. Texts in memory have fewer than `2 ^ 63` bytes,
well within the bound of `words`. -/
structure Locates (s : Source) (text : String) : Prop where
  within : ∀ offset ≤ text.utf8ByteSize,
    s.position offset = .after ((Text.bytes text).take offset)
  ordered : ∀ p q, p < q → (s.position p).Before (s.position q)
  words : text.utf8ByteSize + 2 < UInt64.size →
    ∃ lengths : List UInt64, lengths.map UInt64.toNat = s.lines ∧
      ∀ offset : UInt64, ∃ line column, locate64? 0 lengths offset = some (line, column) ∧
        s.position offset.toNat = ⟨line.toNat, column.toNat⟩

theorem locates_of_lines {s : Source} {text : String} (hs : s.lines = lineLengths 0 text.toList) :
    s.Locates text := by
  constructor
  · intro offset h
    rw [← byteCount_toList] at h
    have hl := locate_lineLengths 1 0 h
    rwa [Nat.zero_add, Nat.zero_add, Position.foldl_next, ← Text.bytes_eq, ← hs] at hl
  · exact fun p q h => locate_before 1 s.lines h
  · intro h
    rw [← byteCount_toList] at h
    have bounds := bounds_lineLengths 0 text.toList
    have hcount := length_lineLengths 0 text.toList
    rw [← hs] at bounds hcount
    have hwords : (s.lines.map UInt64.ofNat).map UInt64.toNat = s.lines := by
      rw [List.map_map]
      refine (List.map_congr_left fun n hn => ?_).trans (List.map_id _)
      have hle := (bounds n hn).2
      exact UInt64.toNat_ofNat_of_lt' (by omega)
    have hpos : ∀ n ∈ s.lines.map UInt64.ofNat, 0 < n.toNat := by
      intro n hn
      have hm := List.mem_map_of_mem (f := UInt64.toNat) hn
      rw [hwords] at hm
      exact (bounds _ hm).1
    have hne : s.lines.map UInt64.ofNat ≠ [] := by
      obtain ⟨length, rest, heq, _⟩ := lineLengths_eq_cons 0 text.toList
      rw [hs, heq]
      exact List.cons_ne_nil _ _
    have hsize : (0 : UInt64).toNat + (s.lines.map UInt64.ofNat).length + 1 < UInt64.size := by
      rw [List.length_map, UInt64.toNat_zero]
      omega
    refine ⟨_, hwords, fun offset => ?_⟩
    obtain ⟨l, c, hl, hc⟩ := locate64?_eq offset hpos hsize fun h => (hne h).elim
    rw [hwords] at hc
    exact ⟨l, c, hl, hc⟩

/-- Within a text, an offset is at the line and the column that its bytes lead to. A later offset is
at a later place, wherever the text ends. No number overflows 64 bits on the way to a place. -/
theorem locates (text : String) : (ofString text).Locates text ∧
    (∀ path, (ofFile path text).Locates text) ∧ unknown.Locates "" :=
  ⟨locates_of_lines rfl, fun _ => locates_of_lines rfl, locates_of_lines rfl⟩

/-- The greatest offset of 64 bits is far down the last column. -/
theorem locates_greatest : ∃ line column : UInt64,
    (ofString "a\nb").position 18446744073709551615 = ⟨line.toNat, column.toNat⟩ ∧
      line = 3 ∧ column = 18446744073709551612 := by
  obtain ⟨lengths, _, hplaces⟩ := (locates "a\nb").1.words (by decide)
  obtain ⟨line, column, _, hplace⟩ := hplaces 18446744073709551615
  have hvalue : (ofString "a\nb").position 18446744073709551615 =
    ⟨3, 18446744073709551612⟩ := by decide +kernel
  obtain ⟨hline, hcolumn⟩ := Position.mk.inj (hplace.symm.trans hvalue)
  exact ⟨line, column, hplace, UInt64.toNat_inj.mp hline, UInt64.toNat_inj.mp hcolumn⟩

/-- The empty text has one place, and goes on after it as if a line ended there. -/
example : (List.range 3).map unknown.position = [⟨1, 1⟩, ⟨2, 1⟩, ⟨2, 2⟩] := by decide

end Source

end SyncCircuit
