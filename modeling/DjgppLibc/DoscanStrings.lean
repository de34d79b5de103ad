import DjgppLibc.Doscan
import DjgppLibc.Scanset
import Mathlib.Algebra.Order.Group.Int

/-!
# `_instr`: characters, strings and scansets

The text is what the stream still gives, and EOF comes when it is empty. The answer
of the allocator to its call number `i` is `heap i`: `malloc` comes first, then the
calls of `realloc`, and zero is NULL. A store behind the end of an allocated buffer
stops the model, and so does one through NULL; the arrays of the caller have no size
here.
-/
namespace DjgppLibc.Doscan

def BUFFER_INCREMENT : ℕ := 128

inductive Fault where
  | overrun | nullPointer
  deriving DecidableEq, Repr

/-- `c & 0xff` -/
def byteOf (c : Char) : BitVec 8 := BitVec.ofNat 8 c.toNat

/-- `_sctab[c & 0xff] & bits` -/
def Table.has (sctab : Table) (bits : BitVec 8) (c : Char) : Bool := sctab (byteOf c) &&& bits ≠ 0

/-- The variables of the loop. The buffer has `capacity` bytes, of which `stored` are written;
`buffer_size` counts those that are left. -/
structure Copy where
  nchars : ℤ
  len : ℤ
  stored : List Char := []
  bufferSize : ℕ := BUFFER_INCREMENT
  capacity : ℕ := BUFFER_INCREMENT
  /-- The calls of the allocator so far. -/
  calls : ℕ := 1
  deriving DecidableEq, Repr

/-- What a conversion is called with: its `ignstp`, its type, whether `m` is given and whether
there is a pointer. -/
structure Kind where
  type : Char
  allocate : Bool
  ptr : Bool
  deriving DecidableEq, Repr

def Kind.ignstp (k : Kind) : BitVec 8 :=
  if k.type = 'c' then 0 else if k.type = '[' then STP else SPC

/-- `if (ptr) *ptr++ = ch` -/
def store (k : Kind) (c : Char) (s : Copy) : Except Fault Copy :=
  if k.allocate then
    if s.stored.length < s.capacity then .ok { s with stored := s.stored ++ [c] }
    else .error .overrun
  else if k.ptr then .ok { s with stored := s.stored ++ [c] }
  else .ok s

/-- `--buffer_size`, and another 128 bytes when there is nothing left. -/
def grow (heap : ℕ → ℕ) (s : Copy) : Option Copy :=
  if s.bufferSize - 1 < 1 then
    if heap s.calls = 0 then none
    else
      some { s with
        capacity := s.stored.length + BUFFER_INCREMENT, bufferSize := BUFFER_INCREMENT
        calls := s.calls + 1, len := if s.len - 1 < 1 then defaultWidth else s.len - 1 }
  else some { s with bufferSize := s.bufferSize - 1 }

/-- The end of the loop: `ch` with the text behind it, or a call of `realloc` that failed. -/
inductive Copied where
  | done (ch : Option Char) (text : List Char) (s : Copy)
  | failed (text : List Char) (s : Copy)
  deriving DecidableEq, Repr

variable (sctab : Table) (heap : ℕ → ℕ) (k : Kind)

/-- The loop from the character `ch = c` on. -/
def copy (c : Char) (text : List Char) (s : Copy) : Except Fault Copied :=
  if sctab.has k.ignstp c then .ok (.done (some c) text s)
  else
    match store k c s with
    | .error e => .error e
    | .ok s =>
        if k.allocate && k.type ≠ 'c' then
          match grow heap s, text with
          | none, text => .ok (.failed text s)
          | some s, [] => .ok (.done none [] { s with nchars := s.nchars + 1 })
          | some s, c :: text => copy c text { s with nchars := s.nchars + 1 }
        else
          let s := { s with len := s.len - 1 }
          if s.len < 1 then .ok (.done (some c) text s)
          else
            match text with
            | [] => .ok (.done none [] { s with nchars := s.nchars + 1 })
            | c :: text => copy c text { s with nchars := s.nchars + 1 }

/-- The answer of `_instr`. The text behind it, the characters stored, the last answer of
`realloc` with the size that was asked for, and the number of characters taken. -/
structure Got where
  matched : Bool
  text : List Char
  eof : Bool
  nchars : ℤ
  stored : List Char := []
  final : Option (ℕ × ℤ) := none
  enomem : Bool := false
  deriving DecidableEq, Repr

def settle (base : ℤ) (matched : Bool) (ch : Option Char) (text : List Char) (s : Copy) :
    Except Fault Got :=
  let back : Bool := ch ≠ none && 0 < s.len
  let nchars := if ch = none ∨ back then s.nchars - 1 else s.nchars
  let r : Got := ⟨matched, if back then ch.toList ++ text else text, ch = none, nchars, s.stored,
    none,
    false⟩
  if !matched then .ok r
  else if !k.allocate then .ok r
  else
    let nul : ℕ := if k.type = 'c' then 0 else 1
    if s.capacity < s.stored.length + nul then .error .overrun
    else if !k.ptr then .error .nullPointer
    else
      let final := (heap s.calls, nchars - base + nul)
      -- the test is of the low byte of the address
      if final.1 % 256 = 0 then .ok { r with matched := false, final, enomem := true }
      else .ok { r with final }

def instr (len : ℤ) (text : List Char) : Except Fault Got :=
  let len := if k.type = 'c' ∧ len = defaultWidth then 1 else len
  if k.allocate ∧ (len = 0 ∨ heap 0 = 0) then
    .ok ⟨false, text, false, 0, [], none, true⟩
  else
    let skip := if k.type = 's' then SPC else 0
    let base : ℤ := (text.takeWhile (sctab.has skip)).length
    match text.dropWhile (sctab.has skip) with
    | [] => settle heap k base false none [] { nchars := base + 1, len }
    | c :: text =>
        match copy sctab heap k c text { nchars := base + 1, len } with
        | .error e => .error e
        | .ok (.failed text s) =>
            .ok ⟨false, text, false, s.nchars, s.stored, none, true⟩
        | .ok (.done ch text s) => settle heap k base (!sctab.has k.ignstp c) ch text s

variable {sctab heap k} {c : Char} {text : List Char} {s s' : Copy}

def takes (sctab : Table) (k : Kind) (c : Char) : Bool := !sctab.has k.ignstp c

/-- The buffer after `n` characters: it has room for another one. -/
structure Filled (n : ℕ) (s : Copy) : Prop where
  calls : s.calls = n / 128 + 1
  capacity : s.capacity = 128 * (n / 128 + 1)
  bufferSize : s.bufferSize = 128 - n % 128
  len : 1 ≤ s.len

/-- The calls of `realloc` from `n` characters up to `n'` are answered. -/
def Answered (heap : ℕ → ℕ) (n n' : ℕ) : Prop := ∀ i, n < 128 * i → 128 * i ≤ n' → heap i ≠ 0

theorem Answered.trans {n m n' : ℕ} (h : Answered heap n m) (h' : Answered heap m n') :
    Answered heap n n' := by
  intro i hi hi'
  rcases Nat.lt_or_ge m (128 * i) with hlt | hle
  · exact h' i hlt hi'
  · exact h i hi hle

/-- After a store there is room for another one, or a call of `realloc` has failed. -/
theorem grow_stored (c : Char) (h : Filled s.stored.length s) :
    (grow heap { s with stored := s.stored ++ [c] } = none ∧
      ∃ i, s.stored.length + 1 = 128 * i ∧ heap i = 0) ∨
    ∃ s', grow heap { s with stored := s.stored ++ [c] } = some s' ∧ s'.stored = s.stored ++ [c] ∧
      s'.nchars = s.nchars ∧ Filled s'.stored.length s' ∧
      Answered heap s.stored.length s'.stored.length := by
  obtain ⟨hcalls, hcapacity, hbuffer, hpos⟩ := h
  have hlen : (s.stored ++ [c]).length = s.stored.length + 1 := by simp
  unfold grow
  dsimp only
  by_cases hfull : s.bufferSize - 1 < 1
  · have hmod : s.stored.length % 128 = 127 := by omega
    rw [if_pos hfull]
    by_cases hheap : heap s.calls = 0
    · rw [if_pos hheap]
      rw [hcalls] at hheap
      exact .inl ⟨rfl, s.stored.length / 128 + 1, by omega, hheap⟩
    · rw [if_neg hheap]
      refine .inr ⟨_, rfl, rfl, rfl, ⟨?_, ?_, ?_, ?_⟩, fun i hi hi' => ?_⟩
      · dsimp only
        omega
      · unfold BUFFER_INCREMENT
        dsimp only
        omega
      · unfold BUFFER_INCREMENT
        dsimp only
        omega
      · unfold defaultWidth
        dsimp only
        split_ifs <;> omega
      · rw [hlen] at hi'
        obtain rfl : i = s.calls := by omega
        exact hheap
  · rw [if_neg hfull]
    refine .inr ⟨_, rfl, rfl, rfl, ⟨?_, ?_, ?_, hpos⟩, fun i hi hi' => ?_⟩
    · dsimp only
      omega
    · dsimp only
      omega
    · dsimp only
      omega
    · rw [hlen] at hi'
      omega

theorem filled_start (nchars : ℤ) {len : ℤ} (h : 1 ≤ len) : Filled 0 { nchars, len } :=
  ⟨rfl, by simp [BUFFER_INCREMENT], by simp [BUFFER_INCREMENT], h⟩

theorem Filled.next (h : Filled s.stored.length s) :
    Filled ({ s with nchars := s.nchars + 1 } : Copy).stored.length
      { s with nchars := s.nchars + 1 } :=
  ⟨h.calls, h.capacity, h.bufferSize, h.len⟩

/-- How the loop of `%ms` and `%m[` ends, the characters `p` being stored on the way. -/
def Ends (sctab : Table) (heap : ℕ → ℕ) (k : Kind) (line : List Char) (s : Copy) (r : Copied) :
    Prop :=
  match r with
  | .done ch text s' =>
      s'.stored = s.stored ++ line.takeWhile (takes sctab k) ∧
      ch.toList ++ text = line.dropWhile (takes sctab k) ∧ (ch = none → text = []) ∧
      Filled s'.stored.length s' ∧ Answered heap s.stored.length s'.stored.length ∧
      s'.nchars = s.nchars + (line.takeWhile (takes sctab k)).length
  | .failed text s' =>
      ∃ p i, s'.stored = s.stored ++ p ∧ p <+: line.takeWhile (takes sctab k) ∧ p ++ text = line ∧
        s'.stored.length = 128 * i ∧ s.stored.length < 128 * i ∧ heap i = 0 ∧
        Answered heap s.stored.length (128 * i - 1)

theorem copy_stops (hc : takes sctab k c = false) :
    copy sctab heap k c text s = .ok (.done (some c) text s) := by
  have hhas : sctab.has k.ignstp c = true := by simpa [takes] using hc
  rw [copy, if_pos hhas]

/-- A character that is taken, with the text behind it. -/
theorem copy_takes (hk : k.allocate = true) (htype : k.type ≠ 'c') (hc : takes sctab k c = true)
    (h : Filled s.stored.length s) :
    copy sctab heap k c text s =
      match grow heap { s with stored := s.stored ++ [c] }, text with
      | none, text => .ok (.failed text { s with stored := s.stored ++ [c] })
      | some s, [] => .ok (.done none [] { s with nchars := s.nchars + 1 })
      | some s, c :: text => copy sctab heap k c text { s with nchars := s.nchars + 1 } := by
  have hhas : sctab.has k.ignstp c = false := by simpa [takes] using hc
  have hroom : s.stored.length < s.capacity := by
    rw [h.capacity]
    omega
  have hstore : store k c s = .ok { s with stored := s.stored ++ [c] } := by
    unfold store
    rw [if_pos hk, if_pos hroom]
  have hgrow : (k.allocate && decide (k.type ≠ 'c')) = true := by simp [hk, htype]
  rw [copy, hhas, if_neg Bool.false_ne_true, hstore]
  dsimp only
  rw [if_pos hgrow]

theorem Ends.cons {r : Copied} (hc : takes sctab k c = true) (hstored : s'.stored = s.stored ++ [c])
    (hnchars : s'.nchars = s.nchars)
    (hanswered : Answered heap s.stored.length s'.stored.length)
    (h : Ends sctab heap k text { s' with nchars := s'.nchars + 1 } r) :
    Ends sctab heap k (c :: text) s r := by
  have hlen : s'.stored.length = s.stored.length + 1 := by
    rw [hstored, List.length_append, List.length_singleton]
  cases r with
  | done ch rest t =>
      obtain ⟨hst, hline, hch, hfilled, hans, hn⟩ := h
      refine ⟨?_, ?_, hch, hfilled, hanswered.trans hans, ?_⟩
      · rw [hst, List.takeWhile_cons_of_pos hc]
        dsimp only
        rw [hstored, List.append_assoc]
        rfl
      · rw [List.dropWhile_cons_of_pos hc, hline]
      · rw [hn, List.takeWhile_cons_of_pos hc, List.length_cons]
        dsimp only
        push_cast
        omega
  | failed rest t =>
      obtain ⟨p, i, hst, hstarts, hline, hlen', hlt, hheap, hans⟩ := h
      refine ⟨c :: p, i, ?_, ?_, ?_, hlen',
        by dsimp only at hlt; omega, hheap, hanswered.trans hans⟩
      · rw [hst]
        dsimp only
        rw [hstored, List.append_assoc]
        rfl
      · rw [List.takeWhile_cons_of_pos hc]
        exact (List.prefix_cons_inj c).mpr hstarts
      · rw [List.cons_append, hline]

theorem answered_self (heap : ℕ → ℕ) (n : ℕ) : Answered heap n n := fun i hi hi' => by omega

theorem ends_stops (hc : takes sctab k c = false) (h : Filled s.stored.length s) :
    Ends sctab heap k (c :: text) s (.done (some c) text s) := by
  refine ⟨?_, ?_, nofun, h, answered_self _ _, ?_⟩
  · rw [List.takeWhile_cons_of_neg (by simp [hc]), List.append_nil]
  · rw [List.dropWhile_cons_of_neg (by simp [hc])]
    rfl
  · rw [List.takeWhile_cons_of_neg (by simp [hc])]
    exact (Int.add_zero _).symm

theorem ends_nil (s : Copy) (h : Filled s.stored.length s) :
    Ends sctab heap k [] s (.done none [] s) :=
  ⟨(List.append_nil _).symm, rfl, fun _ => rfl, h, answered_self _ _, (Int.add_zero _).symm⟩

theorem ends_failed (hc : takes sctab k c = true) {i : ℕ} (hi : s.stored.length + 1 = 128 * i)
    (hheap : heap i = 0) :
    Ends sctab heap k (c :: text) s (.failed text { s with stored := s.stored ++ [c] }) := by
  refine ⟨[c], i, rfl, ?_, rfl, ?_, by omega, hheap, fun j hj hj' => by omega⟩
  · rw [List.takeWhile_cons_of_pos hc]
    exact ⟨_, rfl⟩
  · simpa using hi

theorem copy_ends (hk : k.allocate = true) (htype : k.type ≠ 'c')
    (h : Filled s.stored.length s) :
    ∃ r, copy sctab heap k c text s = .ok r ∧ Ends sctab heap k (c :: text) s r := by
  induction text generalizing c s with
  | nil =>
      cases hc : takes sctab k c with
      | false => exact ⟨_, copy_stops hc, ends_stops hc h⟩
      | true =>
          rw [copy_takes hk htype hc h]
          rcases grow_stored c h with ⟨hgrow, i, hi, hheap⟩ | ⟨s₁, hgrow, hst, hn, hfilled, hans⟩
          · rw [hgrow]
            exact ⟨_, rfl, ends_failed hc hi hheap⟩
          · rw [hgrow]
            exact ⟨_, rfl, (ends_nil _ hfilled.next).cons hc hst hn hans⟩
  | cons d text ih =>
      cases hc : takes sctab k c with
      | false => exact ⟨_, copy_stops hc, ends_stops hc h⟩
      | true =>
          rw [copy_takes hk htype hc h]
          rcases grow_stored c h with ⟨hgrow, i, hi, hheap⟩ | ⟨s₁, hgrow, hst, hn, hfilled, hans⟩
          · rw [hgrow]
            exact ⟨_, rfl, ends_failed hc hi hheap⟩
          · rw [hgrow]
            obtain ⟨r, hr, hends⟩ := ih (c := d) hfilled.next
            exact ⟨r, hr, hends.cons hc hst hn hans⟩

variable {len : ℤ}

/-- The bits of the characters that are skipped. -/
def Kind.skip (k : Kind) : BitVec 8 := if k.type = 's' then SPC else 0

def line (sctab : Table) (k : Kind) (text : List Char) : List Char :=
  text.dropWhile (sctab.has k.skip)

def blanks (sctab : Table) (k : Kind) (text : List Char) : List Char :=
  text.takeWhile (sctab.has k.skip)

theorem blanks_append_line (sctab : Table) (k : Kind) (text : List Char) :
    blanks sctab k text ++ line sctab k text = text := List.takeWhile_append_dropWhile

/-- The text is the one stored, between what is skipped and what is left. -/
def Consumed (sctab : Table) (k : Kind) (text : List Char) (r : Got) : Prop :=
  text = blanks sctab k text ++ r.stored ++ r.text

def run (sctab : Table) (k : Kind) (text : List Char) : List Char :=
  (line sctab k text).takeWhile (takes sctab k)

/-- A call of `realloc` in the loop fails. -/
structure Failed (heap : ℕ → ℕ) (m : ℕ) (r : Got) (i : ℕ) : Prop where
  stored : r.stored.length = 128 * i
  pos : 1 ≤ i
  le : 128 * i ≤ m
  failed : heap i = 0
  answered : Answered heap 0 (128 * i - 1)
  matched : r.matched = false
  final : r.final = none

structure Ended (heap : ℕ → ℕ) (m : ℕ) (r : Got) : Prop where
  stored : r.stored.length = m
  answered : Answered heap 0 m
  final : r.final = if m = 0 then none else some (heap (m / 128 + 1), (m : ℤ) + 1)
  matched : r.matched = decide (m ≠ 0 ∧ heap (m / 128 + 1) % 256 ≠ 0)

/-- What is pushed back, and the count behind the loop. -/
theorem settle_eq (hk : k.allocate = true) (hptr : k.ptr = true) (htype : k.type ≠ 'c')
    (base : ℤ) (matched : Bool) {ch : Option Char} (h : Filled s.stored.length s) :
    settle heap k base matched ch text s =
      if matched then
        .ok ⟨decide (heap s.calls % 256 ≠ 0), ch.toList ++ text, ch = none, s.nchars - 1, s.stored,
          some (heap s.calls, s.nchars - 1 - base + 1), decide (heap s.calls % 256 = 0)⟩
      else .ok ⟨false, ch.toList ++ text, ch = none, s.nchars - 1, s.stored, none, false⟩ := by
  have hpos : 0 < s.len := h.len
  have hroom : ¬ s.capacity < s.stored.length + 1 := by
    rw [h.capacity]
    omega
  unfold settle
  cases ch <;> cases matched <;> simp [hk, hptr, htype, hpos, hroom] <;> split_ifs <;> simp_all

theorem settle_string (hk : k.allocate = true) (hptr : k.ptr = true) (htype : k.type ≠ 'c')
    (base : ℤ) (ch : Option Char) (text : List Char)
    (h : Filled s.stored.length s) (hnchars : s.nchars = base + 1 + s.stored.length)
    (hanswered : Answered heap 0 s.stored.length) :
    ∃ r, settle heap k base (decide (s.stored.length ≠ 0)) ch text s = .ok r ∧
      r.stored = s.stored ∧ r.text = ch.toList ++ text ∧ Ended heap s.stored.length r := by
  rw [settle_eq hk hptr htype base _ h]
  by_cases hzero : s.stored.length = 0
  · rw [if_neg (by simp [hzero])]
    exact ⟨_, rfl, rfl, rfl, rfl, hanswered, by rw [if_pos hzero], by simp [hzero]⟩
  · rw [if_pos (by simp [hzero])]
    refine ⟨_, rfl, rfl, rfl, rfl, hanswered, ?_, ?_⟩
    · have hsize : base + 1 + (s.stored.length : ℤ) - 1 - base + 1 = s.stored.length + 1 := by omega
      rw [if_neg hzero, h.calls, hnchars, hsize]
    · simp [hzero, h.calls]

/-- The width that counts. -/
def Kind.width (k : Kind) (len : ℤ) : ℤ := if k.type = 'c' ∧ len = defaultWidth then 1 else len

theorem instr_eq (hheap : heap 0 ≠ 0) (hlen : k.width len ≠ 0) (text : List Char) :
    instr sctab heap k len text =
      match line sctab k text with
      | [] => settle heap k (blanks sctab k text).length false none []
          { nchars := (blanks sctab k text).length + 1, len := k.width len }
      | c :: text' =>
          match copy sctab heap k c text'
              { nchars := (blanks sctab k text).length + 1, len := k.width len } with
          | .error e => .error e
          | .ok (.failed rest s) => .ok ⟨false, rest, false, s.nchars, s.stored, none, true⟩
          | .ok (.done ch rest s) =>
              settle heap k (blanks sctab k text).length (!sctab.has k.ignstp c) ch rest s := by
  have hmalloc : ¬ (k.allocate = true ∧ (k.width len = 0 ∨ heap 0 = 0)) := by
    rintro ⟨-, h | h⟩
    · exact hlen h
    · exact hheap h
  unfold instr
  dsimp only
  rw [← Kind.width, if_neg hmalloc]
  rfl

theorem instr_string (hk : k.allocate = true) (hptr : k.ptr = true) (htype : k.type ≠ 'c')
    (hheap : heap 0 ≠ 0) (hlen : 1 ≤ len) (text : List Char) :
    ∃ r, instr sctab heap k len text = .ok r ∧ Consumed sctab k text r ∧
      ((∃ i, Failed heap (run sctab k text).length r i) ∨ Ended heap
        (run sctab k text).length r) := by
  have hwidth : k.width len = len := if_neg fun h => htype h.1
  rw [instr_eq hheap (by omega), hwidth]
  unfold Consumed run
  have happend := blanks_append_line sctab k text
  generalize blanks sctab k text = b at happend ⊢
  generalize line sctab k text = ln at happend ⊢
  cases ln with
  | nil =>
      obtain ⟨r, hr, hst, htext, hended⟩ := settle_string hk hptr htype b.length none []
        (s := { nchars := b.length + 1, len }) (filled_start _ hlen) (by simp) (answered_self _ _)
      refine ⟨r, hr, ?_, .inr hended⟩
      rw [hst, htext, ← happend]
      simp
  | cons c rest =>
      obtain ⟨r, hr, hends⟩ := copy_ends (c := c)
        (s := { nchars := b.length + 1, len }) hk htype (filled_start _ hlen)
      dsimp only
      rw [hr]
      cases r with
      | failed rest' s =>
          obtain ⟨p, i, hst, hstarts, hline, hlen, hlt, hfail, hans⟩ := hends
          rw [List.nil_append] at hst
          refine ⟨_, rfl, ?_, .inl ⟨i, hlen, ?_, ?_, hfail, hans, rfl, rfl⟩⟩
          · rw [← happend, ← hline, hst, List.append_assoc]
          · simp at hlt
            omega
          · rw [← hlen, hst]
            exact hstarts.length_le
      | done ch rest' s =>
          obtain ⟨hst, hline, -, hfilled, hans, hn⟩ := hends
          rw [List.nil_append] at hst
          have hmatched : (!sctab.has k.ignstp c) = decide (s.stored.length ≠ 0) := by
            rw [hst]
            cases hc : takes sctab k c with
            | true =>
                rw [List.takeWhile_cons_of_pos hc]
                simpa [takes] using hc
            | false =>
                rw [List.takeWhile_cons_of_neg (by simp [hc])]
                simpa [takes] using hc
          obtain ⟨r, hr, hst', htext, hended⟩ := settle_string hk hptr htype b.length ch
            rest' hfilled (by rw [hn, hst]) hans
          dsimp only
          rw [hmatched]
          refine ⟨r, hr, ?_, .inr (by rw [← hst]; exact hended)⟩
          rw [htext, hst', hst, hline, List.append_assoc, List.takeWhile_append_dropWhile, happend]

end DjgppLibc.Doscan
