import DjgppLibc.DoscanStrings
import Mathlib.Data.PNat.Notation

/-!
# The buffers of `%mc`, `%ms` and `%m[`

For strings and scansets the buffer grows in time, but the width is not looked at.
For characters it is, but the buffer does not grow. The test of the last answer of
`realloc` looks at the low byte of the address only.
-/
namespace DjgppLibc.Doscan

variable {sctab : Table} {heap : ℕ → ℕ} {k : Kind} {c : Char} {text : List Char} {s : Copy} {w : ℕ}

theorem takes_char (htype : k.type = 'c') (c : Char) : takes sctab k c = true := by
  simp [takes, Table.has, Kind.ignstp, htype]

/-- The loop of `%mc` up to the width or to the end. -/
structure Taken (s : Copy) (w : ℕ) (line : List Char) (ch : Option Char) (rest : List Char)
    (s' : Copy) : Prop where
  stored : s'.stored = s.stored ++ line.take w
  rest : rest = line.drop w
  capacity : s'.capacity = s.capacity
  calls : s'.calls = s.calls
  ends : (ch = none ∧ s'.nchars = s.nchars + (line.take w).length) ∨
    (ch ≠ none ∧ s'.len = 0 ∧ s'.nchars = s.nchars + (line.take w).length - 1)

/-- One character. -/
theorem copy_char (hk : k.allocate = true) (htype : k.type = 'c') (c : Char) (text : List Char)
    (s : Copy) :
    copy sctab heap k c text s =
      if s.stored.length < s.capacity then
        if s.len - 1 < 1 then
          .ok (.done (some c) text { s with stored := s.stored ++ [c], len := s.len - 1 })
        else
          match text with
          | [] => .ok (.done none []
              { s with stored := s.stored ++ [c], len := s.len - 1, nchars := s.nchars + 1 })
          | d :: text => copy sctab heap k d text
              { s with stored := s.stored ++ [c], len := s.len - 1, nchars := s.nchars + 1 }
      else .error .overrun := by
  have hhas : sctab.has k.ignstp c = false := by simpa [takes] using takes_char htype c
  have hgrow : ¬ (k.allocate && decide (k.type ≠ 'c')) = true := by simp [htype]
  rw [copy, hhas, if_neg Bool.false_ne_true]
  unfold store
  rw [if_pos hk]
  by_cases hroom : s.stored.length < s.capacity
  · rw [if_pos hroom, if_pos hroom]
    dsimp only
    exact if_neg hgrow
  · rw [if_neg hroom, if_neg hroom]

theorem taken_last (hlen : s.len = 1) (text : List Char) : Taken s 1 (c :: text) (some c) text
    { s with stored := s.stored ++ [c], len := s.len - 1 } where
  stored := rfl
  rest := rfl
  capacity := rfl
  calls := rfl
  ends := .inr ⟨nofun, by dsimp only; omega, by simp⟩

theorem Taken.cons {ch : Option Char} {rest : List Char} {s' : Copy} (h : Taken
      { s with stored := s.stored ++ [c], len := s.len - 1,
               nchars := s.nchars + 1 } w text ch rest s') :
    Taken s (w + 1) (c :: text) ch rest s' where
  stored := by
    rw [h.stored, List.take_succ_cons, List.append_assoc]
    rfl
  rest := h.rest
  capacity := h.capacity
  calls := h.calls
  ends := by
    have hends := h.ends
    dsimp only at hends
    rw [List.take_succ_cons, List.length_cons]
    push_cast
    exact hends.imp (And.imp_right fun h => by omega)
      (And.imp_right fun h => ⟨h.1, by omega⟩)

theorem copy_chars (hk : k.allocate = true) (htype : k.type = 'c') (hw : 1 ≤ w) (hlen : s.len = w)
    (hroom : s.stored.length + ((c :: text).take w).length ≤ s.capacity) :
    ∃ ch rest s', copy sctab heap k c text s = .ok (.done ch rest s') ∧
      Taken s w (c :: text) ch rest s' := by
  obtain ⟨w, rfl⟩ : ∃ n, w = n + 1 := ⟨w - 1, by omega⟩
  rw [List.take_succ_cons, List.length_cons] at hroom
  push_cast at hlen
  induction text generalizing c s w with
  | nil =>
      rw [copy_char hk htype, if_pos (by omega)]
      by_cases hlast : w = 0
      · subst hlast
        rw [if_pos (by omega)]
        exact ⟨_, _, _, rfl, taken_last (by simpa using hlen) []⟩
      · rw [if_neg (by omega)]
        refine ⟨_, _, _, rfl, Taken.cons ⟨?_, ?_, rfl, rfl, .inl ⟨rfl, ?_⟩⟩⟩ <;> simp
  | cons d text ih =>
      rw [copy_char hk htype, if_pos (by omega)]
      by_cases hlast : w = 0
      · subst hlast
        rw [if_pos (by omega)]
        exact ⟨_, _, _, rfl, taken_last (by simpa using hlen) _⟩
      · obtain ⟨w, rfl⟩ : ∃ n, w = n + 1 := ⟨w - 1, by omega⟩
        rw [if_neg (by omega)]
        obtain ⟨ch, rest, s', hcopy, htaken⟩ := ih (c := d)
          (s := { s with stored := s.stored ++ [c], len := s.len - 1, nchars := s.nchars + 1 }) w
          (by omega) (by simpa [Nat.add_assoc, Nat.add_comm 1] using hroom) (by dsimp only; omega)
        exact ⟨ch, rest, s', hcopy, htaken.cons⟩

theorem copy_chars_overrun (hk : k.allocate = true) (htype : k.type = 'c') (hlen : s.len = w)
    (hfull : s.capacity < s.stored.length + ((c :: text).take w).length)
    (hroom : s.stored.length ≤ s.capacity) :
    copy sctab heap k c text s = .error .overrun := by
  induction text generalizing c s w with
  | nil =>
      rw [List.length_take, List.length_singleton] at hfull
      rw [copy_char hk htype, if_neg (by omega)]
  | cons d text ih =>
      rw [copy_char hk htype]
      by_cases hlast : s.stored.length < s.capacity
      · obtain ⟨w, rfl⟩ : ∃ n, w = n + 2 := by
          rw [List.length_take] at hfull
          exact ⟨w - 2, by omega⟩
        rw [List.take_succ_cons, List.length_cons] at hfull
        rw [if_pos hlast, if_neg (by push_cast at hlen; omega)]
        apply ih (w := w + 1)
        · dsimp only
          push_cast at hlen ⊢
          omega
        · simp only [List.length_append, List.length_singleton]
          omega
        · simp only [List.length_append, List.length_singleton]
          omega
      · rw [if_neg hlast]

/-- The characters that `%mc` takes: the default stands for one. -/
def charWidth (w : ℕ) : ℕ := if w = defaultWidth then 1 else w

theorem width_char (htype : k.type = 'c') (w : ℕ) : k.width w = charWidth w := by
  unfold Kind.width charWidth
  by_cases h : w = defaultWidth
  · rw [if_pos ⟨htype, by rw [h]⟩, if_pos h]
    rfl
  · rw [if_neg fun h' => h (by exact_mod_cast h'.2), if_neg h]

theorem charWidth_pos (hw : 1 ≤ w) : 1 ≤ charWidth w := by
  unfold charWidth
  split_ifs
  · exact Nat.le_refl 1
  · exact hw

theorem line_char (htype : k.type = 'c') (text : List Char) :
    line sctab k text = text ∧ blanks sctab k text = [] := by
  have hskip : sctab.has k.skip = fun _ => false := by
    funext c
    simp [Table.has, Kind.skip, htype]
  unfold line blanks
  rw [hskip]
  cases text <;> exact ⟨rfl, rfl⟩

/-- Nothing is pushed back. -/
theorem settle_char (hptr : k.ptr = true) (hk : k.allocate = true) (htype : k.type = 'c')
    {line rest : List Char} {ch : Option Char} {s' : Copy} (h : Taken s w line ch rest s')
    (hstored : s.stored = []) (hnchars : s.nchars = 1) (hroom : s'.stored.length ≤ s'.capacity) :
    ∃ r, settle heap k 0 true ch rest s' = .ok r ∧ r.stored = line.take w ∧ r.text = line.drop w ∧
      r.final = some (heap s.calls, ((line.take w).length : ℤ)) ∧
      r.matched = decide (heap s.calls % 256 ≠ 0) := by
  have hst : s'.stored = line.take w := by rw [h.stored, hstored, List.nil_append]
  have hsize : (if ch = none ∨ (decide (ch ≠ none) && decide (0 < s'.len)) = true then
      s'.nchars - 1 else s'.nchars) = ((line.take w).length : ℤ) := by
    rcases h.ends with ⟨rfl, hn⟩ | ⟨hch, hlen, hn⟩
    · rw [if_pos (.inl rfl)]
      omega
    · rw [if_neg (by simp [hch, hlen])]
      omega
  have hback : (decide (ch ≠ none) && decide (0 < s'.len)) = false := by
    rcases h.ends with ⟨rfl, -⟩ | ⟨-, hlen, -⟩
    · rfl
    · simp [hlen]
  have hfits : ¬ s'.capacity < (line.take w).length := by
    rw [← hst]
    omega
  unfold settle
  dsimp only
  rw [hsize, hback]
  simp only [hk, hptr, htype, if_true, Bool.not_true, Bool.false_eq_true, if_false, Nat.add_zero,
    hfits, h.calls, h.rest, hst, Int.sub_zero]
  split_ifs with hlow
  · exact ⟨_, rfl, rfl, rfl, by simp, by simp [hlow]⟩
  · exact ⟨_, rfl, rfl, rfl, by simp, by simp [hlow]⟩

theorem instr_char (sctab : Table) (hptr : k.ptr = true) (hk : k.allocate = true)
    (htype : k.type = 'c')
    (hheap : heap 0 ≠ 0) (hw : 1 ≤ w) (text : List Char) :
    if (text.take (charWidth w)).length ≤ 128 then
      ∃ r, instr sctab heap k w text = .ok r ∧ text = r.stored ++ r.text ∧
        r.stored = text.take (charWidth w) ∧
        r.final = (if text = [] then none else some (heap 1, (r.stored.length : ℤ))) ∧
        r.matched = decide (text ≠ [] ∧ heap 1 % 256 ≠ 0)
    else instr sctab heap k w text = .error .overrun := by
  have hpos := charWidth_pos hw
  obtain ⟨hline, hblanks⟩ := line_char htype text
  rw [instr_eq hheap (by rw [width_char htype]; omega), width_char htype, hline, hblanks]
  generalize charWidth w = n at hpos ⊢
  cases text with
  | nil =>
      rw [if_pos (by simp)]
      exact ⟨_, rfl, rfl, by simp, rfl, rfl⟩
  | cons c text =>
      obtain ⟨s, hs⟩ : ∃ s : Copy, s = { nchars := (([] : List Char).length : ℤ) + 1, len := n } :=
        ⟨_, rfl⟩
      have hstored : s.stored = [] := by rw [hs]
      have hcapacity : s.capacity = 128 := by rw [hs]; rfl
      have hlen : s.len = n := by rw [hs]
      have hcalls : s.calls = 1 := by rw [hs]
      have hhas : sctab.has k.ignstp c = false := by
        simpa [takes] using takes_char htype c
      dsimp only
      rw [← hs, hhas]
      by_cases hroom : ((c :: text).take n).length ≤ 128
      · obtain ⟨ch, rest, s', hcopy, htaken⟩ := copy_chars hk htype
          hpos hlen (by rw [hstored, hcapacity]; simpa using hroom)
        obtain ⟨r, hr, hst, htext, hfinal, hmatched⟩ := settle_char hptr hk htype htaken
          hstored (by rw [hs]; rfl)
          (by rw [htaken.stored, htaken.capacity, hstored, hcapacity]; simpa using hroom)
        rw [if_pos hroom, hcopy]
        refine ⟨r, hr, ?_, hst, ?_, ?_⟩
        · rw [hst, htext, List.take_append_drop]
        · rw [hfinal, hcalls, hst, if_neg (List.cons_ne_nil c text)]
        · rw [hmatched, hcalls]
          simp
      · rw [if_neg hroom, copy_chars_overrun hk htype hlen
          (by rw [hstored, hcapacity,
            List.length_nil]; omega) (by rw [hstored]; exact Nat.zero_le _)]

/-- The width as the loop starts with it. -/
def givenWidth (w : Option ℕ+) : ℤ :=
  match w with
  | none => defaultWidth
  | some n => (n : ℕ)

/-- What is promised of a conversion with a buffer of its own. -/
structure Kept (sctab : Table) (k : Kind) (w : Option ℕ+) (text : List Char) (r : Got) : Prop where
  width : ∀ n, w = some n → r.stored.length ≤ (n : ℕ)
  large : ∀ p n, r.final = some (p, n) →
    (r.stored.length : ℤ) + (if k.type = 'c' then 0 else 1) ≤ n
  consumed : ∃ skipped, text = skipped ++ r.stored ++ r.text ∧
    (skipped = [] ∨ k.type = 's' ∧ skipped = blanks sctab k text)
  matched : r.matched = true ↔ r.stored ≠ [] ∧ ∃ p n, r.final = some (p, n) ∧ p ≠ 0

/-- The conversion ends without a store behind its buffer, and keeps what is promised. -/
def Fits (sctab : Table) (heap : ℕ → ℕ) (k : Kind) (w : Option ℕ+) (text : List Char) : Prop :=
  ∃ r, instr sctab heap k (givenWidth w) text = .ok r ∧ Kept sctab k w text r

/-- The characters that are stored if all calls of `realloc` are answered. -/
def count (sctab : Table) (k : Kind) (w : Option ℕ+) (text : List Char) : ℕ :=
  if k.type = 'c' then (text.take (charWidth (givenWidth w).toNat)).length
  else (run sctab k text).length

/-- The last call of `realloc`. -/
def lastCall (k : Kind) (m : ℕ) : ℕ := if k.type = 'c' then 1 else m / 128 + 1

structure Benign (sctab : Table) (heap : ℕ → ℕ) (k : Kind) (w : Option ℕ+) (text : List Char) :
    Prop where
  /-- The buffer of `%mc` has 128 bytes. -/
  room : k.type = 'c' → count sctab k w text ≤ 128
  /-- The width of a string or a scanset is not reached, or the memory is at its end before. -/
  width : k.type ≠ 'c' → ∀ n, w = some n →
    count sctab k w text ≤ (n : ℕ) ∨ ∃ i, 1 ≤ i ∧ 128 * i ≤ (n : ℕ) ∧ heap i = 0
  /-- The last call of `realloc` fails, or does not answer with a low byte of zero. -/
  address : 0 < count sctab k w text →
    (k.type ≠ 'c' → Answered heap 0 (count sctab k w text)) →
    heap (lastCall k (count sctab k w text)) = 0 ∨
      heap (lastCall k (count sctab k w text)) % 256 ≠ 0

theorem instr_no_memory (hk : k.allocate = true) (hheap : heap 0 = 0) (len : ℤ) (text : List Char) :
    instr sctab heap k len text = .ok ⟨false, text, false, 0, [], none, true⟩ := by
  unfold instr
  exact if_pos ⟨hk, .inr hheap⟩

theorem fits_no_memory (hk : k.allocate = true) (hheap : heap 0 = 0) (w : Option ℕ+)
    (text : List Char) : Fits sctab heap k w text := by
  refine ⟨_, instr_no_memory hk hheap _ text, fun n _ => Nat.zero_le _, nofun, ⟨[], rfl, .inl rfl⟩,
    ?_⟩
  exact iff_of_false Bool.false_ne_true fun h => h.1 rfl

theorem givenWidth_pos (w : Option ℕ+) : 1 ≤ (givenWidth w).toNat := by
  cases w with
  | none => decide
  | some n => exact n.2

theorem givenWidth_toNat (w : Option ℕ+) : givenWidth w = ((givenWidth w).toNat : ℤ) := by
  cases w <;> rfl

theorem charWidth_le (hw : 1 ≤ w) : charWidth w ≤ w := by
  unfold charWidth
  split_ifs
  · exact hw
  · exact Nat.le_refl w

theorem fits_of_ok {r : Got} {w : Option ℕ+} (h : instr sctab heap k (givenWidth w) text = .ok r) :
    Fits sctab heap k w text ↔ Kept sctab k w text r := by
  unfold Fits
  rw [h]
  constructor
  · rintro ⟨r', hr', hkept⟩
    cases hr'
    exact hkept
  · exact fun hkept => ⟨r, rfl, hkept⟩

/-- An address that is not NULL and passes the test, or NULL. -/
theorem low_byte_iff (p : ℕ) : (p % 256 ≠ 0 ↔ p ≠ 0) ↔ p = 0 ∨ p % 256 ≠ 0 := by
  by_cases hp : p = 0
  · simp [hp]
  · simp [hp]

theorem fits_char (hptr : k.ptr = true) (hk : k.allocate = true) (htype : k.type = 'c')
    (hheap : heap 0 ≠ 0) (w : Option ℕ+) (text : List Char) :
    Fits sctab heap k w text ↔ Benign sctab heap k w text := by
  have hpos := givenWidth_pos w
  have hinstr := instr_char sctab hptr hk htype hheap hpos text
  have hcount : count sctab k w text = (text.take (charWidth (givenWidth w).toNat)).length :=
    if_pos htype
  have hlast : lastCall k (count sctab k w text) = 1 := if_pos htype
  rw [← givenWidth_toNat, ← hcount] at hinstr
  by_cases hroom : count sctab k w text ≤ 128
  · rw [if_pos hroom] at hinstr
    obtain ⟨r, hr, htext, hst, hfinal, hmatched⟩ := hinstr
    rw [fits_of_ok hr]
    have hwidth : ∀ n, w = some n → r.stored.length ≤ (n : ℕ) := by
      rintro n rfl
      have hle := charWidth_le n.2
      have htake := List.length_take_le (charWidth n) text
      rw [hst]
      exact Nat.le_trans htake hle
    have hlarge : ∀ p n, r.final = some (p, n) →
        (r.stored.length : ℤ) + (if k.type = 'c' then 0 else 1) ≤ n := by
      intro p n hpn
      rw [hfinal] at hpn
      split_ifs at hpn
      obtain ⟨-, rfl⟩ := Prod.mk.inj (Option.some.inj hpn)
      rw [if_pos htype, Int.add_zero]
    have hempty : r.stored = [] ↔ text = [] := by
      have hcw := charWidth_pos hpos
      rw [hst, List.take_eq_nil_iff]
      exact or_iff_right (by omega)
    have hzero : 0 < count sctab k w text ↔ text ≠ [] := by
      rw [hcount, ← hst, List.length_pos_iff, Ne, hempty]
    have haddress : (r.matched = true ↔ r.stored ≠ [] ∧ ∃ p n, r.final = some (p, n) ∧ p ≠ 0) ↔
        (text ≠ [] → heap 1 = 0 ∨ heap 1 % 256 ≠ 0) := by
      have hne : r.stored ≠ [] ↔ text ≠ [] := not_congr hempty
      rw [hmatched, hfinal, hne, decide_eq_true_eq]
      by_cases ht : text = []
      · simp [ht]
      · rw [if_neg ht, ← low_byte_iff]
        simp [ht]
    constructor
    · intro h
      refine ⟨fun _ => hroom, fun hne => absurd htype hne, fun hcpos _ => ?_⟩
      rw [hlast]
      exact haddress.mp h.matched (hzero.mp hcpos)
    · intro h
      refine ⟨hwidth, hlarge, ⟨[], htext, .inl rfl⟩, haddress.mpr fun ht => ?_⟩
      have hbyte := h.address (hzero.mpr ht) fun hne => absurd htype hne
      rwa [hlast] at hbyte
  · rw [if_neg hroom] at hinstr
    refine iff_of_false ?_ fun h => hroom (h.room htype)
    rintro ⟨r, hr, -⟩
    rw [hinstr] at hr
    cases hr

section Strings

variable {m : ℕ} {r : Got}

theorem stored_le_iff (h : (∃ i, Failed heap m r i) ∨ Ended heap m r) (n : ℕ) :
    r.stored.length ≤ n ↔ m ≤ n ∨ ∃ i, 1 ≤ i ∧ 128 * i ≤ n ∧ heap i = 0 := by
  rcases h with ⟨i, hfailed⟩ | hended
  · have hst := hfailed.stored
    have hle := hfailed.le
    rw [hst]
    constructor
    · exact fun hn => .inr ⟨i, hfailed.pos, hn, hfailed.failed⟩
    · rintro (hn | ⟨j, hj, hn, hzero⟩)
      · omega
      · -- no call before the one that has failed fails
        rcases Nat.lt_or_ge j i with hlt | hge
        · exact absurd hzero (hfailed.answered j (by omega) (by omega))
        · omega
  · rw [hended.stored]
    constructor
    · exact .inl
    · rintro (hn | ⟨j, hj, hn, hzero⟩)
      · exact hn
      · by_contra hlt
        exact hended.answered j (by omega) (by omega) hzero

theorem large_of_outcome (h : (∃ i, Failed heap m r i) ∨ Ended heap m r) {p : ℕ} {n : ℤ}
    (hfinal : r.final = some (p, n)) : (r.stored.length : ℤ) + 1 ≤ n := by
  rcases h with ⟨i, hfailed⟩ | hended
  · rw [hfailed.final] at hfinal
    cases hfinal
  · rw [hended.final] at hfinal
    split_ifs at hfinal
    obtain ⟨-, rfl⟩ := Prod.mk.inj (Option.some.inj hfinal)
    rw [hended.stored]

theorem matched_outcome_iff (h : (∃ i, Failed heap m r i) ∨ Ended heap m r) :
    (r.matched = true ↔ r.stored ≠ [] ∧ ∃ p n, r.final = some (p, n) ∧ p ≠ 0) ↔
      (0 < m → Answered heap 0 m → heap (m / 128 + 1) = 0 ∨ heap (m / 128 + 1) % 256 ≠ 0) := by
  rcases h with ⟨i, hfailed⟩ | hended
  · have hpos := hfailed.pos
    rw [hfailed.matched, hfailed.final]
    refine iff_of_true (iff_of_false Bool.false_ne_true ?_) fun _ hans => ?_
    · rintro ⟨-, p, n, hpn, -⟩
      cases hpn
    · exact absurd hfailed.failed (hans i (by omega) hfailed.le)
  · have hempty : r.stored ≠ [] ↔ m ≠ 0 := by
      rw [← hended.stored]
      exact not_congr List.length_eq_zero_iff.symm
    rw [hended.matched, hended.final, hempty, decide_eq_true_eq]
    by_cases hm : m = 0
    · simp [hm]
    · rw [if_neg hm, ← low_byte_iff]
      simp [hm, Nat.pos_of_ne_zero hm, hended.answered]

end Strings

theorem Kept.string_iff (htype : k.type ≠ 'c') {w : Option ℕ+} {r : Got}
    (hconsumed : Consumed sctab k text r)
    (h : (∃ i, Failed heap (run sctab k text).length r i) ∨ Ended heap
      (run sctab k text).length r) :
    Kept sctab k w text r ↔ Benign sctab heap k w text := by
  have hcount : count sctab k w text = (run sctab k text).length := if_neg htype
  have hlast : lastCall k (count sctab k w text) = (run sctab k text).length / 128 + 1 := by
    rw [hcount]
    exact if_neg htype
  have hskip : ∃ skipped, text = skipped ++ r.stored ++ r.text ∧
      (skipped = [] ∨ k.type = 's' ∧ skipped = blanks sctab k text) := by
    refine ⟨blanks sctab k text, hconsumed, ?_⟩
    by_cases hs : k.type = 's'
    · exact .inr ⟨hs, rfl⟩
    · have hnone : sctab.has k.skip = fun _ => false := by
        funext c
        simp [Table.has, Kind.skip, hs]
      unfold blanks
      rw [hnone]
      cases text <;> exact .inl rfl
  constructor
  · intro hkept
    refine ⟨fun hc => absurd hc htype, fun _ n hn => ?_, fun hpos hans => ?_⟩
    · rw [hcount]
      exact (stored_le_iff h n).mp (hkept.width n hn)
    · rw [hlast]
      rw [hcount] at hpos hans
      exact (matched_outcome_iff h).mp hkept.matched hpos (hans htype)
  · intro hbenign
    refine ⟨fun n hn => (stored_le_iff h n).mpr ?_, fun p n hpn => ?_, hskip,
      (matched_outcome_iff h).mpr fun hpos hans => ?_⟩
    · rw [← hcount]
      exact hbenign.width htype n hn
    · rw [if_neg htype]
      exact large_of_outcome h hpn
    · rw [← hcount] at hpos hans
      have haddress := hbenign.address hpos fun _ => hans
      rwa [hlast] at haddress

/-- The conversions with `m` do what they are for, unless characters go on behind the width of a
string, more than 128 are asked for by `%mc`, or the address that comes back ends in a zero. -/
theorem instr_fits_iff (sctab : Table) (heap : ℕ → ℕ) (type : Char) (w : Option ℕ+)
    (text : List Char) :
    Fits sctab heap ⟨type, true, true⟩ w text ↔
      heap 0 = 0 ∨ Benign sctab heap ⟨type, true, true⟩ w text := by
  by_cases hheap : heap 0 = 0
  · exact iff_of_true (fits_no_memory rfl hheap w text) (.inl hheap)
  · rw [or_iff_right hheap]
    by_cases htype : type = 'c'
    · exact fits_char rfl rfl htype hheap w text
    · have hlen : 1 ≤ givenWidth w := by
        have hpos := givenWidth_pos w
        rw [givenWidth_toNat]
        exact_mod_cast hpos
      obtain ⟨r, hr, hconsumed, houtcome⟩ :=
        instr_string (k := ⟨type, true, true⟩) rfl rfl htype hheap hlen text
      rw [fits_of_ok hr]
      exact Kept.string_iff htype hconsumed houtcome

/-- `%3ms` stores all of `abcdef`; `%129mc` writes behind its buffer; and an address that ends in
a zero is taken for a failure. -/
theorem instr_goes_wrong :
    ¬ Fits initialTable (fun _ => 0x1004) ⟨'s', true, true⟩ (some ⟨3, by decide⟩)
        ['a', 'b', 'c', 'd', 'e', 'f'] ∧
      ¬ Fits initialTable (fun _ => 0x1004) ⟨'c', true, true⟩ (some ⟨129, by decide⟩)
        (List.replicate 129 'a') ∧
      ¬ Fits initialTable (fun _ => 0x1000) ⟨'s', true, true⟩ none ['a'] := by
  refine ⟨?_, ?_, ?_⟩
  · rintro ⟨r, hr, hkept⟩
    have hrun : instr initialTable (fun _ => 0x1004) ⟨'s', true, true⟩
      (givenWidth (some ⟨3, by decide⟩))
        ['a', 'b', 'c', 'd', 'e', 'f'] =
        .ok ⟨true, [], true, 6, ['a', 'b', 'c', 'd', 'e', 'f'], some (0x1004, 7), false⟩ := by
          decide +kernel
    rw [hrun] at hr
    cases hr
    exact absurd (hkept.width ⟨3, by decide⟩ rfl) (by decide)
  · rintro ⟨r, hr, -⟩
    obtain ⟨text, htext⟩ : ∃ text, text = List.replicate 129 'a' := ⟨_, rfl⟩
    have hlen : text.length = 129 := by rw [htext, List.length_replicate]
    have hlong : ¬ (text.take (charWidth 129)).length ≤ 128 := by
      rw [List.length_take, hlen]
      decide
    have hrun : if (text.take (charWidth 129)).length ≤ 128 then _
        else instr initialTable (fun _ => 0x1004) ⟨'c', true, true⟩ (129 : ℕ) text =
            .error .overrun :=
      instr_char initialTable rfl rfl rfl (by decide) (by decide) text
    rw [if_neg hlong] at hrun
    have hwidth : givenWidth (some ⟨129, by decide⟩) = ((129 : ℕ) : ℤ) := rfl
    rw [hwidth, ← htext, hrun] at hr
    cases hr
  · rintro ⟨r, hr, hkept⟩
    have hrun : instr initialTable (fun _ => 0x1000) ⟨'s', true, true⟩ (givenWidth none) ['a'] =
        .ok ⟨false, [], true, 1, ['a'], some (0x1000, 2), true⟩ := by decide +kernel
    rw [hrun] at hr
    cases hr
    exact absurd (hkept.matched.mpr ⟨by decide, 0x1000, 2, rfl, by decide⟩) (by decide)

end DjgppLibc.Doscan
