import SyncCircuit.Proofs.Accepted
import SyncCircuit.Proofs.Reports

/-!
Traces and their texts. A text of the digits `0` and `1` is read as a trace that has it as its text;
any other is refused for its first character of another kind. To set a value is to write its digit
over a character of the text. So the text of a trace, however it came about, shows what is in each
of the cells. It can be read if no cell is without a value, and then gives the same trace.
-/

namespace SyncCircuit

namespace Trace

variable {x : Name} {s : String} {t u : Trace} {i : ℕ} {v : Bool} {f : Fault} {c : Char}
  {text : List Char} {values : List Bool} {writes : List (ℕ × Bool)}

structure FirstOther (text : List Char) (c : Char) : Prop where
  other : ¬(c = '0' ∨ c = '1')
  first : ∃ before after, text = before ++ c :: after ∧ ∀ b ∈ before, b = '0' ∨ b = '1'

/-- The text has a character for each cell, which tells what is in it. -/
structure ShownAs (t : Trace) (text : List Char) : Prop where
  length : text.length = t.length
  zero : ∀ i, text[i]? = some '0' ↔ t.get? i = some false
  one : ∀ i, text[i]? = some '1' ↔ t.get? i = some true
  unset : ∀ i, text[i]? = some 'X' ↔ i < t.length ∧ t.get? i = none

def setEach? (t : Trace) (writes : List (ℕ × Bool)) : Option Trace :=
  writes.foldlM (fun t w => t.set? w.1 w.2) t

def overwrite (text : List Char) (writes : List (ℕ × Bool)) : List Char :=
  writes.foldl (fun text w => text.set w.1 (digit w.2)) text

section reading

theorem firstOther_iff :
    FirstOther text c ↔ text.find? (fun c => ¬(c = '0' ∨ c = '1')) = some c := by
  simp only [List.find?_eq_some_iff_append, decide_eq_true_eq, Bool.not_eq_true',
    decide_eq_false_iff_not, not_not]
  exact ⟨fun h => ⟨h.other, h.first⟩, fun h => ⟨h.1, h.2⟩⟩

theorem bits_or_firstOther (text : List Char) :
    (∀ c ∈ text, c = '0' ∨ c = '1') ∨ ∃ c, FirstOther text c := by
  simp only [firstOther_iff, ← Option.isSome_iff_exists, List.find?_isSome, decide_eq_true_eq]
  by_cases h : ∀ c ∈ text, c = '0' ∨ c = '1'
  · exact .inl h
  · exact .inr (by simpa using h)

theorem exists_digits (h : ∀ c ∈ text, c = '0' ∨ c = '1') :
    ∃ values : List Bool, text = values.map digit := by
  refine ⟨text.map (· = '1'), ?_⟩
  rw [List.map_map]
  refine (List.map_id text).symm.trans (List.map_congr_left fun c hc => ?_)
  rcases h c hc with rfl | rfl <;> rfl

theorem mem_digits (h : c ∈ values.map digit) : c = '0' ∨ c = '1' := by
  obtain ⟨b, -, rfl⟩ := List.mem_map.mp h
  cases b
  · exact .inl rfl
  · exact .inr rfl

theorem ofBits_of_digits (h : s.toList = values.map digit) :
    ofBits x s = .ok (ofValues x values) := by
  rw [ofBits, h, mapM_readBit]
  rfl

theorem ofBits_of_firstOther (h : FirstOther s.toList c) :
    ofBits x s = .error (.invalidBit x c) := by
  obtain ⟨before, after, hs, hbefore⟩ := h.first
  obtain ⟨values, rfl⟩ := exists_digits hbefore
  have hc : readBit x c = .error (.invalidBit x c) := by
    rw [readBit, if_neg (mt .inl h.other), if_neg (mt .inr h.other)]
  rw [ofBits, hs, List.mapM_append, mapM_readBit, List.mapM_cons, hc]
  rfl

theorem ofBits_cases (x : Name) (s : String) :
    (∃ values, s.toList = values.map digit ∧ ofBits x s = .ok (ofValues x values)) ∨
      ∃ c, FirstOther s.toList c ∧ ofBits x s = .error (.invalidBit x c) := by
  rcases bits_or_firstOther s.toList with hs | ⟨c, hc⟩
  · obtain ⟨values, hs⟩ := exists_digits hs
    exact .inl ⟨values, hs, ofBits_of_digits hs⟩
  · exact .inr ⟨c, hc, ofBits_of_firstOther hc⟩

theorem ofBits_eq_ok_iff :
    ofBits x s = .ok t ↔ ∃ values, s.toList = values.map digit ∧ t = ofValues x values := by
  constructor
  · intro h
    rcases ofBits_cases x s with ⟨values, hs, hok⟩ | ⟨c, -, herror⟩
    · exact ⟨values, hs, Except.ok.inj (h.symm.trans hok)⟩
    · cases h.symm.trans herror
  · rintro ⟨values, hs, rfl⟩
    exact ofBits_of_digits hs

theorem ofBits_eq_error_iff :
    ofBits x s = .error f ↔ ∃ c, FirstOther s.toList c ∧ f = .invalidBit x c := by
  constructor
  · intro h
    rcases ofBits_cases x s with ⟨values, -, hok⟩ | ⟨c, hc, herror⟩
    · cases h.symm.trans hok
    · exact ⟨c, hc, Except.error.inj (h.symm.trans herror)⟩
  · rintro ⟨c, hc, rfl⟩
    exact ofBits_of_firstOther hc

theorem exists_ofBits_iff :
    (∃ t, ofBits x s = .ok t) ↔ ∀ c ∈ s.toList, c = '0' ∨ c = '1' := by
  constructor
  · rintro ⟨t, ht⟩
    obtain ⟨values, hs, -⟩ := ofBits_eq_ok_iff.mp ht
    rw [hs]
    exact fun c => mem_digits
  · intro h
    obtain ⟨values, hs⟩ := exists_digits h
    exact ⟨_, ofBits_of_digits hs⟩

theorem bits_of_ofBits (h : ofBits x s = .ok t) : t.signal = x ∧ t.bits = s := by
  obtain ⟨values, hs, rfl⟩ := ofBits_eq_ok_iff.mp h
  exact ⟨rfl, String.toList_inj.mp ((toList_bits_ofValues x values).trans hs.symm)⟩

end reading

theorem length_toList_bits (t : Trace) : t.bits.toList.length = t.length := by
  rw [toList_bits, List.length_map, length]

theorem toList_bits_unset (x : Name) (n : ℕ) :
    (unset x n).bits.toList = List.replicate n 'X' := by
  rw [toList_bits, unset, List.map_replicate, cellChar]

section setting

theorem exists_set? (h : i < t.length) : ∃ u, t.set? i v = some u := ⟨_, if_pos h⟩

theorem set?_eq_some (h : t.set? i v = some u) :
    i < t.length ∧ u.signal = t.signal ∧ u.bits.toList = t.bits.toList.set i (digit v) := by
  unfold set? at h
  split at h
  · next hi =>
    obtain rfl := Option.some.inj h
    refine ⟨hi, rfl, ?_⟩
    rw [toList_bits, toList_bits, List.map_set, cellChar]
  · cases h

theorem length_of_set? (h : t.set? i v = some u) : u.length = t.length := by
  rw [← length_toList_bits, (set?_eq_some h).2.2, List.length_set, length_toList_bits]

theorem setEach?_cons (t : Trace) (w : ℕ × Bool) (writes : List (ℕ × Bool)) :
    t.setEach? (w :: writes) = (t.set? w.1 w.2).bind (setEach? · writes) := rfl

theorem exists_setEach? (h : ∀ w ∈ writes, w.1 < t.length) : ∃ u, t.setEach? writes = some u := by
  induction writes generalizing t with
  | nil => exact ⟨t, rfl⟩
  | cons w writes ih =>
    obtain ⟨hw, hwrites⟩ := List.forall_mem_cons.mp h
    obtain ⟨r, hr⟩ := exists_set? (v := w.2) hw
    obtain ⟨u, hu⟩ := ih (t := r) (by rwa [length_of_set? hr])
    exact ⟨u, by rw [setEach?_cons, hr, Option.bind_some, hu]⟩

theorem setEach?_eq_some (h : t.setEach? writes = some u) :
    (∀ w ∈ writes, w.1 < t.length) ∧ u.signal = t.signal ∧
      u.bits.toList = overwrite t.bits.toList writes := by
  induction writes generalizing t with
  | nil =>
    obtain rfl : t = u := Option.some.inj h
    exact ⟨nofun, rfl, rfl⟩
  | cons w writes ih =>
    rw [setEach?_cons, Option.bind_eq_some_iff] at h
    obtain ⟨r, hr, hu⟩ := h
    obtain ⟨hw, hsignal, hbits⟩ := set?_eq_some hr
    obtain ⟨hwrites, husignal, hubits⟩ := ih hu
    rw [length_of_set? hr] at hwrites
    rw [hbits] at hubits
    exact ⟨List.forall_mem_cons.mpr ⟨hw, hwrites⟩, husignal.trans hsignal, hubits⟩

end setting

theorem lt_length_iff : i < t.length ↔ t.cells[i]?.isSome := by
  simp [length]

theorem shownAs_bits (t : Trace) : t.ShownAs t.bits.toList := by
  have hzero : ∀ o : Option (Option Bool), o.map cellChar = some '0' ↔ o.join = some false := by
    decide
  have hone : ∀ o : Option (Option Bool), o.map cellChar = some '1' ↔ o.join = some true := by
    decide
  have hunset : ∀ o : Option (Option Bool),
      o.map cellChar = some 'X' ↔ o.isSome ∧ o.join = none := by decide
  have hchar : ∀ i, t.bits.toList[i]? = t.cells[i]?.map cellChar := fun i => by
    rw [toList_bits, List.getElem?_map]
  exact {
    length := length_toList_bits t
    zero := fun i => by rw [hchar, hzero, get?]
    one := fun i => by rw [hchar, hone, get?]
    unset := fun i => by rw [hchar, hunset, get?, lt_length_iff] }

/-- A cell without a value shows as a character that is not read, and all others are. -/
theorem ofBits_bits_eq_ok_iff :
    ofBits t.signal t.bits = .ok u ↔ (∀ i < t.length, (t.get? i).isSome) ∧ u = t := by
  rw [← isSome_cells_iff, ofBits_eq_ok_iff]
  constructor
  · rintro ⟨values, hbits, rfl⟩
    have hX : 'X' ∉ t.bits.toList := by
      intro h
      rw [hbits] at h
      rcases mem_digits h with h | h <;> cases h
    refine ⟨notMem_bits_iff.mp hX, eq_of_bits_eq rfl ?_⟩
    rw [← String.toList_inj, toList_bits_ofValues, hbits]
  · rintro ⟨hset, rfl⟩
    have hu := eq_ofValues hset
    have hbits := congrArg (·.bits.toList) hu
    exact ⟨_, hbits.trans (toList_bits_ofValues _ _), hu⟩

/-- A text is read if all its characters are `0` or `1`, and then the trace has it as its text;
otherwise the fault names the first other character. The text of a trace made of values has their
digits, that of a trace without any has an `X` for each cycle, and values that are set, which can be
done within the trace only, have their digits written over the characters there. In whichever way a
trace was made and whatever has been set in it, its text shows its cells one by one; it can be read
again if each of them has a value, and what is read is the trace. -/
theorem bits_exact :
    (∀ x s,
      ((∃ t, ofBits x s = .ok t) ↔ ∀ c ∈ s.toList, c = '0' ∨ c = '1') ∧
      (∀ t, ofBits x s = .ok t → t.signal = x ∧ t.bits = s) ∧
      ∀ f, ofBits x s = .error f ↔ ∃ c, FirstOther s.toList c ∧ f = .invalidBit x c) ∧
    (∀ x values, (ofValues x values).bits.toList = values.map digit) ∧
    (∀ x n, (unset x n).bits.toList = List.replicate n 'X') ∧
    (∀ (t : Trace) writes,
      ((∃ u, t.setEach? writes = some u) ↔ ∀ w ∈ writes, w.1 < t.length) ∧
      ∀ u, t.setEach? writes = some u →
        u.signal = t.signal ∧ u.bits.toList = overwrite t.bits.toList writes) ∧
    ∀ t : Trace, t.ShownAs t.bits.toList ∧
      ∀ u, ofBits t.signal t.bits = .ok u ↔ (∀ i < t.length, (t.get? i).isSome) ∧ u = t := by
  refine ⟨fun x s => ⟨exists_ofBits_iff, fun t => bits_of_ofBits, fun f => ofBits_eq_error_iff⟩,
    toList_bits_ofValues, toList_bits_unset, fun t writes => ⟨⟨?_, exists_setEach?⟩, ?_⟩,
    fun t => ⟨shownAs_bits t, fun u => ofBits_bits_eq_ok_iff⟩⟩
  · rintro ⟨u, hu⟩
    exact (setEach?_eq_some hu).1
  · exact fun u hu => (setEach?_eq_some hu).2

example : ofBits "A" "10X0b" = .error (.invalidBit "A" 'X') := by decide +kernel

example : ((unset "B" 3).setEach? [(2, false), (1, false), (1, true)]).map bits = some "X10" := by
  decide +kernel

end Trace

end SyncCircuit
