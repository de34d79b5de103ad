import DjgppLibc.DoscanLoop
import DjgppLibc.DoscanLow
import DjgppLibc.LongestPrefix

/-!
# The array of `_innum`

The loop stores the longest start of the text that is a number of the conversion
within the width. The array has 64 characters, and a minus sign and the NUL need one
each; nothing bounds the number but the width, and that is 30000 if there is none.
-/
namespace DjgppLibc.Doscan
open LongestPrefix

variable {type c : Char} {base len : ℕ} {p rest : List Char} {s q : Scan}

def isPart (type : Char) (base : ℕ) (c : Char) : Bool :=
  isDigitOf base c || isFloat type && c = '.'

/-- At most `len` digits and decimal points. -/
def Parts (type : Char) (base len : ℕ) (p : List Char) : Prop :=
  p.length ≤ len ∧ ∀ c ∈ p, isPart type base c = true

/-- With the type `i` a zero in front makes the number octal. -/
def baseOf (type : Char) (p : List Char) : ℕ :=
  if type = 'i' ∧ p.head? = some '0' then 8 else startBase type

def Hexadecimal (type : Char) (len : ℕ) (p : List Char) : Prop :=
  ∃ z x r, p = z :: x :: r ∧ (type = 'a' ∨ type = 'i' ∨ type = 'x') ∧
    (z = '0' ∨ type = 'a' ∧ z = '.') ∧ (x = 'x' ∨ x = 'X') ∧ 2 ≤ len ∧ Parts type 16 (len - 2) r

def Power (type : Char) (len : ℕ) (p : List Char) : Prop :=
  p = [] ∨ ∃ d r, p = d :: r ∧ (d = '+' ∨ d = '-' ∨ isdigit d = true) ∧ Parts type 10 len r

/-- Digits and decimal points, `n` of which have come before, with an exponent. The letter and
the character behind it count for one in the width. -/
def Scientific (type : Char) (n len : ℕ) (p : List Char) : Prop :=
  ∃ m e r, p = m ++ e :: r ∧ (type = 'e' ∨ type = 'f' ∨ type = 'g') ∧ (e = 'e' ∨ e = 'E') ∧
    0 < n + m.length ∧ m.length < len ∧ (∀ c ∈ m, isPart type 10 c = true) ∧
    Power type (len - m.length - 1) r

def IsNumber (type : Char) (len : ℕ) (p : List Char) : Prop :=
  Parts type (baseOf type p) len p ∨ Hexadecimal type len p ∨ Scientific type 0 len p

def Scan.baseAt (s : Scan) (type c : Char) : ℕ :=
  if c = '0' ∧ s.cpos + 1 = 1 ∧ type = 'i' then 8 else s.base

def Scan.HexFree (s : Scan) (type : Char) : Prop :=
  ∀ c rest, s.text = c :: rest →
    ¬ ((c = 'x' ∨ c = 'X') ∧ (type = 'a' ∨ type = 'i' ∨ type = 'x') ∧ s.cpos + 1 = 2 ∧ s.lcval = 0)

structure Took (s q : Scan) : Prop where
  numbuf : q.numbuf = s.numbuf
  text : q.text = s.text
  cpos : q.cpos = s.cpos + 1
  expseen : q.expseen = s.expseen
  ndigit : q.ndigit = s.ndigit + 1

theorem ne_x_of_isPart (h : isPart type base c = true) : ¬ (c = 'x' ∨ c = 'X') := by
  rw [isPart, Bool.or_eq_true] at h
  rintro hx
  rcases h with hdigit | hpoint
  · exact hx.elim (ne_x_of_isDigitOf hdigit).1 (ne_x_of_isDigitOf hdigit).2
  · rw [Bool.and_eq_true, decide_eq_true_eq] at hpoint
    rw [hpoint.2] at hx
    exact absurd hx (by decide)

theorem baseAt_float {s : Scan} (h : isFloat type = true) (hbase : s.base ≠ 8) :
    s.baseAt type c ≠ 8 := by
  unfold Scan.baseAt
  rw [if_neg]
  · exact hbase
  · rintro ⟨-, -, rfl⟩
    exact absurd h (by decide)

def Scan.seen (s : Scan) (type c : Char) : Scan :=
  { s with cpos := s.cpos + 1, base := s.baseAt type c }

theorem body_cons (type : Char) (htext : s.text = c :: rest) :
    body type s =
      if (c = 'x' ∨ c = 'X') ∧ (type = 'a' ∨ type = 'i' ∨ type = 'x') ∧ s.cpos + 1 = 2 ∧
      s.lcval = 0 then
        .ok (true, { s.seen type c with base := 16 })
      else if isDigitOf (s.baseAt type c) c then
        .ok (true, { s.seen type c with
          ndigit := s.ndigit + 1, lcval := (s.seen type c).shifted + BitVec.ofNat 64 (digitOf c) })
      else if c = '.' then
        if !isFloat type || s.baseAt type c = 8 then .ok (false, s.seen type c)
        else .ok (true, { s.seen type c with ndigit := s.ndigit + 1 })
      else if (c = 'e' ∨ c = 'E') ∧ !s.expseen then
        if !isFloat type || s.baseAt type c = 8 || s.ndigit = 0 then .ok (false, s.seen type c)
        else
          match { s.seen type c with expseen := true }.put with
          | .error e => .error e
          | .ok q => .ok (q.getc.text.head?.any fun c => c = '+' || c = '-' || isdigit c, q.getc)
      else .ok (false, s.seen type c) := by
  unfold body Scan.seen Scan.baseAt
  dsimp only
  rw [htext]
  dsimp only
  by_cases hzero : c = '0' ∧ s.cpos + 1 = 1 ∧ type = 'i'
  · simp only [if_pos hzero] <;> rfl
  · simp only [if_neg hzero] <;> rfl

theorem body_part (htext : s.text = c :: rest) (hbase : isFloat type = true → s.base ≠ 8)
    (hpart : isPart type (s.baseAt type c) c = true) :
    ∃ q, body type s = .ok (true, q) ∧ Took s q ∧ q.base = s.baseAt type c ∧
      q.lcval = if isDigitOf (s.baseAt type c) c then
        (s.seen type c).shifted + BitVec.ofNat 64 (digitOf c) else s.lcval := by
  have hx := ne_x_of_isPart hpart
  rw [body_cons _ htext, if_neg fun h => hx h.1]
  by_cases hdigit : isDigitOf (s.baseAt type c) c = true
  · rw [if_pos hdigit, if_pos hdigit]
    exact ⟨_, rfl, ⟨rfl, rfl, rfl, rfl, rfl⟩, rfl, rfl⟩
  · have hpoint : isFloat type = true ∧ c = '.' := by
      simpa [isPart, hdigit] using hpart
    have height : ¬ (!isFloat type || decide (s.baseAt type c = 8)) = true := by
      simp [hpoint.1, baseAt_float hpoint.1 (hbase hpoint.1)]
    rw [if_neg hdigit, if_neg hdigit, if_pos hpoint.2, if_neg height]
    exact ⟨_, rfl, ⟨rfl, rfl, rfl, rfl, rfl⟩, rfl, rfl⟩

/-- The loop ends at a character that is no part of the number. -/
theorem body_stops (htext : s.text = c :: rest) (hfree : s.HexFree type)
    (hpart : isPart type (s.baseAt type c) c = false)
    (hletter : c = 'e' ∨ c = 'E' → s.expseen = true ∨ isFloat type = false ∨ s.ndigit = 0) :
    body type s = .ok (false, s.seen type c) := by
  have hnot : isDigitOf (s.baseAt type c) c = false ∧ (isFloat type = true → c ≠ '.') := by
    simpa [isPart] using hpart
  rw [body_cons _ htext, if_neg (hfree c rest htext), if_neg (by simp [hnot.1])]
  by_cases hpoint : c = '.'
  · have hint : isFloat type = false := by
      cases hfloat : isFloat type with
      | false => rfl
      | true => exact absurd hpoint (hnot.2 hfloat)
    rw [if_pos hpoint, if_pos (by simp [hint])]
  · rw [if_neg hpoint]
    by_cases he : (c = 'e' ∨ c = 'E') ∧ (!s.expseen) = true
    · have hskip : (!isFloat type || decide (s.baseAt type c = 8) || decide (s.ndigit = 0)) =
          true := by
        rcases hletter he.1 with hseen | hint | hzero
        · rw [hseen] at he
          exact absurd he.2 (by decide)
        · simp [hint]
        · simp [hzero]
      rw [if_pos he, if_pos hskip]
    · rw [if_neg he]

theorem body_letter (htext : s.text = c :: rest) (hletter : c = 'e' ∨ c = 'E')
    (hpart : isPart type (s.baseAt type c) c = false) (hfree : s.HexFree type)
    (hseen : s.expseen = false) (hfloat : isFloat type = true) (hbase : s.base ≠ 8)
    (hdigits : s.ndigit ≠ 0) :
    body type s =
      if s.numbuf.length < 64 then
        .ok (rest.head?.any fun c => c = '+' || c = '-' || isdigit c, { s.seen type c with
          expseen := true, numbuf := s.numbuf ++ [c], text := rest, nchars := s.nchars + 1 })
      else .error .overrun := by
  have hnot : isDigitOf (s.baseAt type c) c = false := by
    simp only [isPart, Bool.or_eq_false_iff] at hpart
    exact hpart.1
  have hpoint : c ≠ '.' := by
    rintro rfl
    exact absurd hletter (by decide)
  have hgo : ¬ (!isFloat type || decide (s.baseAt type c = 8) || decide (s.ndigit = 0)) = true := by
    simp [hfloat, hdigits, baseAt_float hfloat hbase]
  rw [body_cons _ htext, if_neg (hfree c rest htext), if_neg (by simp [hnot]), if_neg hpoint,
    if_pos ⟨hletter, by rw [hseen]; rfl⟩, if_neg hgo, Scan.put]
  by_cases hroom : s.numbuf.length < 64
  · rw [if_pos hroom, if_pos (by exact hroom)]
    simp [Scan.getc, Scan.seen, htext]
  · rw [if_neg hroom, if_neg (by exact hroom)]

/-- The loop stores the text `t` behind what is in the array, if there is room. -/
def Stores (type : Char) (len : ℕ) (s : Scan) (t : List Char) : Prop :=
  s.numbuf.length ≤ 64 →
    if s.numbuf.length + t.length ≤ 64 then
      ∃ s', loop type len s = .ok s' ∧ s'.numbuf = s.numbuf ++ t
    else loop type len s = .error .overrun

variable {t : List Char}

theorem stores_zero (type : Char) (s : Scan) : Stores type 0 s [] := by
  intro hlen
  rw [List.length_nil, Nat.add_zero, if_pos hlen]
  exact ⟨s, rfl, (List.append_nil _).symm⟩

def Scan.next (q : Scan) (c : Char) (rest : List Char) : Scan :=
  { q with numbuf := q.numbuf ++ [c], text := rest, nchars := q.nchars + 1 }

/-- A round that stores `b` in its body and is the last one. -/
theorem stores_last {b : List Char}
    (hbody : s.numbuf.length ≤ 64 → body type s =
      if s.numbuf.length + b.length ≤ 64 then .ok (false, q) else .error .overrun)
    (hbuf : q.numbuf = s.numbuf ++ b) : Stores type (len + 1) s b := by
  intro hlen
  rw [loop, hbody hlen]
  split_ifs
  · exact ⟨q, rfl, hbuf⟩
  · rfl

/-- A round that stores `b` in its body, and the character `c` behind it. -/
theorem stores_round {b : List Char}
    (hbody : s.numbuf.length ≤ 64 → body type s =
      if s.numbuf.length + b.length ≤ 64 then .ok (true, q) else .error .overrun)
    (hbuf : q.numbuf = s.numbuf ++ b) (htext : q.text = c :: rest)
    (h : Stores type len (q.next c rest) t) : Stores type (len + 1) s (b ++ c :: t) := by
  intro hstart
  replace hbody := hbody hstart
  have hlen : q.numbuf.length = s.numbuf.length + b.length := by
    rw [hbuf, List.length_append]
  have hnext : (q.next c rest).numbuf.length = s.numbuf.length + b.length + 1 := by
    rw [Scan.next, List.length_append, hlen, List.length_singleton]
  have htotal : (b ++ c :: t).length = b.length + (t.length + 1) := by
    rw [List.length_append, List.length_cons]
  rcases Nat.lt_trichotomy (s.numbuf.length + b.length) 64 with hlt | heq | hgt
  · rw [if_pos (by omega)] at hbody
    have hgo : loop type (len + 1) s = loop type len (q.next c rest) := by
      rw [loop_go hbody (by omega), htext]
      rfl
    have hrest := h (by omega)
    rw [hnext] at hrest
    rw [hgo, htotal]
    by_cases hfits : s.numbuf.length + (b.length + (t.length + 1)) ≤ 64
    · rw [if_pos (by omega)] at hrest
      obtain ⟨s', hs', hstored⟩ := hrest
      rw [if_pos hfits]
      refine ⟨s', hs', ?_⟩
      rw [hstored, Scan.next, hbuf, List.append_assoc, List.append_assoc]
      rfl
    · rw [if_neg (by omega)] at hrest
      rw [if_neg hfits]
      exact hrest
  · -- the array is full behind the body
    rw [if_pos (by omega)] at hbody
    rw [if_neg (by omega), loop, hbody]
    dsimp only
    rw [Scan.put, if_neg (by omega)]
  · rw [if_neg (by omega)] at hbody
    rw [if_neg (by omega), loop, hbody]

theorem body_nil (htext : s.text = []) :
    body type s = .ok (false, { s with cpos := s.cpos + 1 }) := by
  unfold body
  dsimp only
  rw [htext]

theorem stores_stop (hbody : body type s = .ok (false, q)) (hbuf : q.numbuf = s.numbuf) :
    Stores type (len + 1) s [] :=
  stores_last (fun hlen => by rw [hbody, List.length_nil, Nat.add_zero, if_pos hlen])
    (by rw [hbuf, List.append_nil])

theorem stores_cons (hbody : body type s = .ok (true, q)) (hbuf : q.numbuf = s.numbuf)
    (htext : q.text = c :: rest) (h : Stores type len (q.next c rest) t) :
    Stores type (len + 1) s (c :: t) :=
  stores_round (b := []) (fun hlen => by rw [hbody, List.length_nil, Nat.add_zero, if_pos hlen])
    (by rw [hbuf, List.append_nil]) htext h

theorem parts_cons (hpart : isPart type base c = true) (p : List Char) :
    Parts type base (len + 1) (c :: p) ↔ Parts type base len p := by
  unfold Parts
  rw [List.length_cons, List.forall_mem_cons]
  constructor
  · rintro ⟨hlen, -, hall⟩
    exact ⟨Nat.le_of_succ_le_succ hlen, hall⟩
  · rintro ⟨hlen, hall⟩
    exact ⟨Nat.succ_le_succ hlen, hpart, hall⟩

theorem parts_nil (type : Char) (base len : ℕ) : Parts type base len [] := ⟨Nat.zero_le _, nofun⟩

theorem longest_parts_nil {text : List Char}
    (h : len = 0 ∨ ∀ c rest, text = c :: rest → isPart type base c = false) :
    Longest (Parts type base len) text [] := by
  refine Longest.nil (parts_nil _ _ _) fun p hp hstarts => ?_
  cases p with
  | nil => rfl
  | cons c p =>
      obtain ⟨rest, hrest⟩ := hstarts
      rcases h with rfl | h
      · exact absurd hp.1 (Nat.not_succ_le_zero _)
      · have hpart := hp.2 c List.mem_cons_self
        rw [h c _ hrest.symm] at hpart
        cases hpart

theorem stores_parts (hfree : s.HexFree type) (hcpos : 1 ≤ s.cpos)
    (hbase : isFloat type = true → s.base ≠ 8)
    (hexp : isFloat type = false ∨ s.expseen = true ∨ s.base = 16) :
    ∃ t, Stores type len s t ∧ Longest (Parts type s.base len) s.text t := by
  induction len generalizing s with
  | zero => exact ⟨[], stores_zero type s, longest_parts_nil (.inl rfl)⟩
  | succ len ih =>
      have hat : ∀ c, s.baseAt type c = s.base := fun c => if_neg fun h => by omega
      cases htext : s.text with
      | nil =>
          exact ⟨[], stores_stop (body_nil htext) rfl, longest_parts_nil (.inr nofun)⟩
      | cons c rest =>
          cases hpart : isPart type s.base c with
          | true =>
              obtain ⟨q, hbody, htook, hqbase, -⟩ := body_part htext hbase (by rwa [hat])
              rw [hat] at hqbase
              have hfree' : (q.next c rest).HexFree type := by
                rintro d r - ⟨-, -, hpos, -⟩
                have := htook.cpos
                simp only [Scan.next] at hpos
                omega
              obtain ⟨t, ht, hlongest⟩ := ih (s := q.next c rest) hfree'
                (by simp only [Scan.next, htook.cpos]; omega)
                (by simpa only [Scan.next, hqbase] using hbase)
                (by simpa only [Scan.next, hqbase, htook.expseen] using hexp)
              refine ⟨c :: t, stores_cons hbody htook.numbuf (htook.text.trans htext) ht, ?_⟩
              simp only [Scan.next, hqbase] at hlongest
              exact hlongest.cons (parts_cons hpart)
          | false =>
              have hletter : c = 'e' ∨ c = 'E' →
                  s.expseen = true ∨ isFloat type = false ∨ s.ndigit = 0 := by
                intro he
                rcases hexp with hint | hseen | hhex
                · exact .inr (.inl hint)
                · exact .inl hseen
                · -- the letter is a digit
                  rw [hhex] at hpart
                  rcases he with rfl | rfl <;> simp [isPart, isDigitOf, isdigit] at hpart
              refine ⟨[], stores_stop (body_stops htext hfree (by rwa [hat]) hletter) rfl, ?_⟩
              refine longest_parts_nil (.inr fun d r hd => ?_)
              cases hd
              exact hpart

theorem letter_not_part (he : c = 'e' ∨ c = 'E') : isPart type 10 c = false := by
  rcases he with rfl | rfl <;> simp [isPart, isDigitOf, isdigit]

theorem scientific_part (hpart : isPart type 10 c = true) (n : ℕ) (p : List Char) :
    Scientific type n (len + 1) (c :: p) ↔ Scientific type (n + 1) len p := by
  constructor
  · rintro ⟨m, e, r, hp, htype, he, hn, hlen, hall, hpower⟩
    cases m with
    | nil =>
        cases hp
        rw [letter_not_part he] at hpart
        cases hpart
    | cons d m =>
        cases hp
        rw [List.length_cons] at hn hlen hpower
        have hwidth : len + 1 - (m.length + 1) - 1 = len - m.length - 1 := by omega
        rw [hwidth] at hpower
        exact ⟨m, e, r, rfl, htype, he, by omega, by omega,
          fun x hx => hall x (List.mem_cons_of_mem c hx), hpower⟩
  · rintro ⟨m, e, r, rfl, htype, he, hn, hlen, hall, hpower⟩
    have hwidth : len - m.length - 1 = len + 1 - (m.length + 1) - 1 := by omega
    rw [hwidth] at hpower
    refine ⟨c :: m, e, r, rfl, htype, he, ?_, ?_, ?_, hpower⟩
    · rw [List.length_cons]
      omega
    · rw [List.length_cons]
      omega
    · exact List.forall_mem_cons.mpr ⟨hpart, hall⟩

/-- Digits and decimal points, or a number with an exponent. -/
def Mantissa (type : Char) (n len : ℕ) (p : List Char) : Prop :=
  Parts type 10 len p ∨ Scientific type n len p

theorem mantissa_letter (htype : type = 'e' ∨ type = 'f' ∨ type = 'g') (he : c = 'e' ∨ c = 'E')
    {n : ℕ} (hn : n ≠ 0) (p : List Char) :
    Mantissa type n (len + 1) (c :: p) ↔ Power type len p := by
  have hpart : isPart type 10 c = false := letter_not_part he
  constructor
  · rintro (⟨-, hall⟩ | ⟨m, e, r, hp, -, -, -, -, hall, hpower⟩)
    · rw [hall c List.mem_cons_self] at hpart
      cases hpart
    · cases m with
      | nil =>
          cases hp
          exact hpower
      | cons d m =>
          cases hp
          rw [hall c List.mem_cons_self] at hpart
          cases hpart
  · intro hpower
    exact .inr ⟨[], c, p, rfl, htype, he, by omega, Nat.succ_pos len, nofun, hpower⟩

theorem mantissa_nil (type : Char) (n len : ℕ) : Mantissa type n len [] := .inl (parts_nil _ _ _)

theorem longest_mantissa_nil {text : List Char} {n : ℕ}
    (h : len = 0 ∨ ∀ c rest, text = c :: rest →
      isPart type 10 c = false ∧ (c = 'e' ∨ c = 'E' → n = 0)) :
    Longest (Mantissa type n len) text [] := by
  refine Longest.nil (mantissa_nil _ _ _) fun p hp hstarts => ?_
  cases p with
  | nil => rfl
  | cons c p =>
      obtain ⟨rest, hrest⟩ := hstarts
      rcases h with rfl | h
      · rcases hp with ⟨hlen, -⟩ | ⟨m, e, r, -, -, -, -, hlen, -⟩
        · exact absurd hlen (Nat.not_succ_le_zero _)
        · exact absurd hlen (Nat.not_lt_zero _)
      · obtain ⟨hpart, hzero⟩ := h c _ hrest.symm
        rcases hp with ⟨-, hall⟩ | ⟨m, e, r, hp, -, he, hn, -, hall, -⟩
        · rw [hall c List.mem_cons_self] at hpart
          cases hpart
        · cases m with
          | nil =>
              cases hp
              rw [hzero he] at hn
              exact absurd hn (Nat.lt_irrefl 0)
          | cons d m =>
              cases hp
              rw [hall c List.mem_cons_self] at hpart
              cases hpart

def Scan.letter (s : Scan) (type c : Char) (rest : List Char) : Scan :=
  { s.seen type c with
    expseen := true, numbuf := s.numbuf ++ [c], text := rest, nchars := s.nchars + 1 }

theorem longest_power_nil {text : List Char}
    (h : ∀ d r, text = d :: r → ¬ (d = '+' ∨ d = '-' ∨ isdigit d = true)) :
    Longest (Power type len) text [] := by
  refine Longest.nil (.inl rfl) fun p hp hstarts => ?_
  rcases hp with rfl | ⟨d, r, rfl, hd, -⟩
  · rfl
  · obtain ⟨rest, hrest⟩ := hstarts
    exact absurd hd (h d _ hrest.symm)

theorem power_cons {d : Char} (hd : d = '+' ∨ d = '-' ∨ isdigit d = true) (p : List Char) :
    Power type len (d :: p) ↔ Parts type 10 len p := by
  constructor
  · rintro (hp | ⟨d', r, hp, -, hparts⟩)
    · cases hp
    · cases hp
      exact hparts
  · exact fun hparts => .inr ⟨d, p, rfl, hd, hparts⟩

theorem hexFree_of_type (s : Scan) (htype : ¬ (type = 'a' ∨ type = 'i' ∨ type = 'x')) :
    s.HexFree type := fun _ _ _ h => htype h.2.1

theorem not_hex (htype : type = 'e' ∨ type = 'f' ∨ type = 'g') :
    ¬ (type = 'a' ∨ type = 'i' ∨ type = 'x') ∧ isFloat type = true := by
  rcases htype with rfl | rfl | rfl <;> decide

theorem baseAt_of_type (s : Scan) (c : Char) (htype : type ≠ 'i') : s.baseAt type c = s.base :=
  if_neg fun h => htype h.2.2

/-- From the letter of an exponent on. -/
theorem stores_letter (hbody : body type s = if s.numbuf.length < 64 then
      .ok (rest.head?.any fun c => c = '+' || c = '-' || isdigit c, s.letter type c rest)
      else .error .overrun)
    (hbase : s.base = 10) (htype : type = 'e' ∨ type = 'f' ∨ type = 'g') :
    ∃ t, Stores type (len + 1) s (c :: t) ∧ Longest (Power type len) rest t := by
  obtain ⟨hnothex, -⟩ := not_hex htype
  have hbody' : body type s = if s.numbuf.length + [c].length ≤ 64 then
      .ok (rest.head?.any fun c => c = '+' || c = '-' || isdigit c, s.letter type c rest)
      else .error .overrun := hbody
  cases hgo : rest.head?.any fun c => c = '+' || c = '-' || isdigit c with
  | false =>
      rw [hgo] at hbody'
      refine ⟨[], stores_last (fun _ => hbody') rfl, longest_power_nil ?_⟩
      rintro d r rfl hd
      have hnot : ¬ (d = '+' ∨ d = '-' ∨ isdigit d = true) := by simpa [and_assoc] using hgo
      exact hnot hd
  | true =>
      rw [hgo] at hbody'
      cases rest with
      | nil => cases hgo
      | cons d r =>
          have hd : d = '+' ∨ d = '-' ∨ isdigit d = true := by simpa [or_assoc] using hgo
          have hbase' : ((s.letter type c (d :: r)).next d r).base = 10 := by
            rw [← hbase]
            exact baseAt_of_type s c fun h => hnothex (.inr (.inl h))
          obtain ⟨t, ht, hlongest⟩ := stores_parts
            (s := (s.letter type c (d :: r)).next d r) (hexFree_of_type _ hnothex)
            (Nat.succ_pos _) (fun _ => by rw [hbase']; decide) (.inr (.inl rfl))
          rw [hbase'] at hlongest
          exact ⟨d :: t, stores_round (b := [c]) (fun _ => hbody') rfl rfl ht,
            hlongest.cons (power_cons hd)⟩

theorem stores_mantissa (htype : type = 'e' ∨ type = 'f' ∨ type = 'g') (hbase : s.base = 10)
    (hseen : s.expseen = false) :
    ∃ t, Stores type len s t ∧ Longest (Mantissa type s.ndigit len) s.text t := by
  obtain ⟨hnothex, hfloat⟩ := not_hex htype
  induction len generalizing s with
  | zero => exact ⟨[], stores_zero type s, longest_mantissa_nil (.inl rfl)⟩
  | succ len ih =>
      have hat : ∀ c, s.baseAt type c = 10 := fun c =>
        (baseAt_of_type s c fun h => hnothex (.inr (.inl h))).trans hbase
      have hfree := hexFree_of_type s hnothex
      have hten : isFloat type = true → s.base ≠ 8 := fun _ => by rw [hbase]; decide
      cases htext : s.text with
      | nil =>
          exact ⟨[], stores_stop (body_nil htext) rfl, longest_mantissa_nil (.inr nofun)⟩
      | cons c rest =>
          cases hpart : isPart type 10 c with
          | true =>
              obtain ⟨q, hbody, htook, hqbase, -⟩ := body_part htext hten (by rwa [hat])
              obtain ⟨t, ht, hlongest⟩ := ih (s := q.next c rest) (hqbase.trans (hat c))
                (htook.expseen.trans hseen)
              have hdigits : (q.next c rest).ndigit = s.ndigit + 1 := htook.ndigit
              rw [hdigits] at hlongest
              refine ⟨c :: t, stores_cons hbody htook.numbuf (htook.text.trans htext) ht, ?_⟩
              refine hlongest.cons fun p => ?_
              exact or_congr (parts_cons hpart p) (scientific_part hpart s.ndigit p)
          | false =>
              by_cases hletter : (c = 'e' ∨ c = 'E') ∧ s.ndigit ≠ 0
              · obtain ⟨t, ht, hlongest⟩ := stores_letter
                  (body_letter htext hletter.1 (by rwa [hat]) hfree hseen hfloat (hten hfloat)
                    hletter.2) hbase htype
                exact ⟨c :: t, ht, hlongest.cons (mantissa_letter htype hletter.1 hletter.2)⟩
              · have hzero : c = 'e' ∨ c = 'E' → s.ndigit = 0 := by
                  intro he
                  by_contra hne
                  exact hletter ⟨he, hne⟩
                refine ⟨[], stores_stop (body_stops htext hfree (by rwa [hat])
                  fun he => .inr (.inr (hzero he))) rfl, longest_mantissa_nil (.inr ?_)⟩
                rintro d r hd
                cases hd
                exact ⟨hpart, hzero⟩

theorem digit_zero (hdigit : isDigitOf base c = true) (hzero : BitVec.ofNat 64 (digitOf c) = 0) :
    c = '0' := by
  obtain ⟨hlt, h0⟩ := Doprnt.digitOf_bounds hdigit
  have hnat := congrArg BitVec.toNat hzero
  rw [BitVec.toNat_ofNat, Nat.mod_eq_of_lt (by omega)] at hnat
  exact h0 hnat

/-- What may stand before the x of a hexadecimal number. -/
def IsZero (type c : Char) : Prop := c = '0' ∨ type = 'a' ∧ c = '.'

theorem zero_part (h : IsZero type c) (hbase : base ≠ 0) : isPart type base c = true := by
  rcases h with rfl | ⟨rfl, rfl⟩
  · simp [isPart, isDigitOf, isdigit]
    omega
  · simp [isPart, isFloat]

structure Hex (type c : Char) (len : ℕ) (x : Char) : Prop where
  kind : type = 'a' ∨ type = 'i' ∨ type = 'x'
  zero : IsZero type c
  letter : x = 'x' ∨ x = 'X'
  width : 1 ≤ len

theorem number_hex {x : Char} (h : Hex type c len x) (p : List Char) :
    IsNumber type (len + 1) (c :: x :: p) ↔ Parts type 16 (len - 1) p := by
  have hwidth : len + 1 - 2 = len - 1 := by omega
  constructor
  · rintro (⟨-, hall⟩ | ⟨z, y, r, hp, -, -, -, -, hparts⟩ | ⟨m, e, r, -, htype, -⟩)
    · have hpart := hall x (by simp)
      exact absurd h.letter (ne_x_of_isPart hpart)
    · cases hp
      rwa [hwidth] at hparts
    · exact absurd h.kind (not_hex htype).1
  · intro hparts
    rw [← hwidth] at hparts
    have hlen := h.width
    exact .inr (.inl ⟨c, x, p, rfl, h.kind, h.zero, h.letter, by omega, hparts⟩)

theorem isNumber_nil (type : Char) (len : ℕ) : IsNumber type len [] := .inl (parts_nil _ _ _)

/-- A number starts with one of its parts. -/
theorem part_of_number (h : IsNumber type len (c :: p)) :
    isPart type (baseOf type (c :: p)) c = true ∧ len ≠ 0 := by
  have hten : ∀ e, (e = 'e' ∨ e = 'f' ∨ e = 'g') → baseOf e (c :: p) = 10 := by
    rintro e (rfl | rfl | rfl) <;> simp [baseOf, startBase]
  rcases h with ⟨hlen, hall⟩ | ⟨z, x, r, hp, -, hzero, -, hlen, -⟩ |
    ⟨m, e, r, hp, htype, -, hn, hlen, hall, -⟩
  · exact ⟨hall c List.mem_cons_self, by rw [List.length_cons] at hlen; omega⟩
  · cases hp
    refine ⟨zero_part hzero ?_, by omega⟩
    unfold baseOf startBase
    split_ifs <;> decide
  · cases m with
    | nil => exact absurd hn (Nat.lt_irrefl 0)
    | cons d m =>
        cases hp
        rw [hten type htype]
        exact ⟨hall c List.mem_cons_self, by omega⟩

/-- The state before the loop. -/
structure Fresh (type : Char) (s : Scan) : Prop where
  base : s.base = startBase type
  cpos : s.cpos = 0
  lcval : s.lcval = 0
  ndigit : s.ndigit = 0
  expseen : s.expseen = false

theorem Fresh.baseAt (h : Fresh type s) (c : Char) (p : List Char) :
    s.baseAt type c = baseOf type (c :: p) := by
  unfold Scan.baseAt baseOf
  rw [h.base, h.cpos]
  by_cases hzero : c = '0' ∧ 0 + 1 = 1 ∧ type = 'i'
  · rw [if_pos hzero, if_pos ⟨hzero.2.2, by rw [hzero.1]; rfl⟩]
  · rw [if_neg hzero, if_neg]
    rintro ⟨hi, hc⟩
    exact hzero ⟨Option.some.inj hc, rfl, hi⟩

theorem Fresh.hexFree (h : Fresh type s) : s.HexFree type := by
  rintro c rest - ⟨-, -, hcpos, -⟩
  rw [h.cpos] at hcpos
  cases hcpos

theorem startBase_float (h : isFloat type = true) : startBase type ≠ 8 := by
  unfold startBase
  rw [if_neg]
  · split_ifs <;> decide
  · rintro rfl
    exact absurd h (by decide)

theorem Fresh.shifted (h : Fresh type s) : (s.seen type c).shifted = 0 := by
  unfold Scan.shifted Scan.seen
  dsimp only
  rw [h.lcval]
  split_ifs <;> rfl

/-- The value behind a zero is still zero. -/
theorem lcval_zero (h : Fresh type s) (hzero : IsZero type c)
    (hlcval : q.lcval = if isDigitOf (s.baseAt type c) c then
      (s.seen type c).shifted + BitVec.ofNat 64 (digitOf c) else s.lcval) : q.lcval = 0 := by
  rw [hlcval, h.shifted, h.lcval]
  rcases hzero with rfl | ⟨-, rfl⟩
  · split_ifs <;> rfl
  · rw [if_neg (by simp [isDigitOf, isdigit])]

theorem next_hexFree {rest : List Char} (h : Fresh type s)
    (hpart : isPart type (s.baseAt type c) c = true)
    (hlcval : q.lcval = if isDigitOf (s.baseAt type c) c then
      (s.seen type c).shifted + BitVec.ofNat 64 (digitOf c) else s.lcval)
    (hhex : ∀ x r, rest = x :: r → ¬ Hex type c len x) (hlen : 1 ≤ len) :
    (q.next c rest).HexFree type := by
  rintro x r hrest ⟨hx, htype, -, hzero⟩
  have hq : q.lcval = 0 := hzero
  refine hhex x r hrest ⟨htype, ?_, hx, hlen⟩
  rw [hlcval] at hq
  cases hdigit : isDigitOf (s.baseAt type c) c with
  | true =>
      rw [if_pos hdigit, h.shifted] at hq
      exact .inl (digit_zero hdigit ((BitVec.zero_add _).symm.trans hq))
  | false =>
      rw [isPart, hdigit, Bool.false_or, Bool.and_eq_true, decide_eq_true_eq] at hpart
      refine .inr ⟨?_, hpart.2⟩
      rcases htype with rfl | rfl | rfl
      · rfl
      · exact absurd hpart.1 (by decide)
      · exact absurd hpart.1 (by decide)

theorem stores_scientific (h : Fresh type s) (htype : type = 'e' ∨ type = 'f' ∨ type = 'g') :
    ∃ t, Stores type len s t ∧ Longest (IsNumber type len) s.text t := by
  have hten : ∀ p, baseOf type p = 10 := by
    intro p
    rcases htype with rfl | rfl | rfl <;> simp [baseOf, startBase]
  have hbase : s.base = 10 := by
    rw [h.base]
    rcases htype with rfl | rfl | rfl <;> decide
  obtain ⟨t, ht, hlongest⟩ := stores_mantissa htype hbase h.expseen
  refine ⟨t, ht, hlongest.congr fun p _ => ?_⟩
  rw [IsNumber, Mantissa, hten, h.ndigit]
  refine or_congr_right ⟨fun hp => hp.resolve_left ?_, .inr⟩
  rintro ⟨z, x, r, -, hhex, -⟩
  exact (not_hex htype).1 hhex

theorem longest_number_nil {text : List Char}
    (h : ∀ c r, text = c :: r → len = 0 ∨ isPart type (baseOf type (c :: r)) c = false) :
    Longest (IsNumber type len) text [] := by
  refine Longest.nil (isNumber_nil _ _) fun p hp hstarts => ?_
  cases p with
  | nil => rfl
  | cons c p =>
      obtain ⟨r, hr⟩ := hstarts
      obtain ⟨hpart, hlen⟩ := part_of_number hp
      rcases h c (p ++ r) hr.symm with hzero | hstop
      · exact absurd hzero hlen
      · have hsame : baseOf type (c :: (p ++ r)) = baseOf type (c :: p) := rfl
        rw [hsame, hpart] at hstop
        cases hstop

theorem float_base (h : Fresh type s) (htype : ¬ (type = 'e' ∨ type = 'f' ∨ type = 'g')) :
    isFloat type = false ∨ s.baseAt type c = 16 := by
  cases hfloat : isFloat type with
  | false => exact .inl rfl
  | true =>
      have ha : type = 'a' := by
        simp only [isFloat, Bool.or_eq_true, decide_eq_true_eq] at hfloat
        tauto
      right
      rw [baseAt_of_type s c (by rw [ha]; decide), h.base, ha]
      decide

theorem number_parts {rest : List Char} (hbase : base = baseOf type (c :: rest))
    (htype : ¬ (type = 'e' ∨ type = 'f' ∨ type = 'g'))
    (hhex : ¬ ∃ x r, rest = x :: r ∧ Hex type c len x) (hstarts : p <+: c :: rest) :
    IsNumber type (len + 1) p ↔ Parts type base (len + 1) p := by
  cases p with
  | nil => exact iff_of_true (isNumber_nil _ _) (parts_nil _ _ _)
  | cons d p =>
      obtain ⟨rfl, hp⟩ := List.cons_prefix_cons.mp hstarts
      have hsame : baseOf type (d :: p) = base := hbase.symm
      constructor
      · rintro (hparts | ⟨z, x, r, hd, hkind, hzero, hx, hlen, -⟩ | ⟨m, e, r, -, hexp, -⟩)
        · rwa [hsame] at hparts
        · cases hd
          obtain ⟨r', hr'⟩ := hp
          exact absurd ⟨x, r ++ r', hr'.symm, hkind, hzero, hx, by omega⟩ hhex
        · exact absurd hexp htype
      · intro hparts
        rw [← hsame] at hparts
        exact .inl hparts

theorem stores_number (h : Fresh type s) :
    ∃ t, Stores type len s t ∧ Longest (IsNumber type len) s.text t := by
  by_cases htype : type = 'e' ∨ type = 'f' ∨ type = 'g'
  · exact stores_scientific h htype
  cases len with
  | zero => exact ⟨[], stores_zero type s, longest_number_nil fun _ _ _ => .inl rfl⟩
  | succ len =>
      cases htext : s.text with
      | nil =>
          exact ⟨[], stores_stop (body_nil htext) rfl, longest_number_nil nofun⟩
      | cons c rest =>
          have hat := h.baseAt c rest
          have height : isFloat type = true → s.base ≠ 8 := by
            rw [h.base]
            exact startBase_float
          cases hpart : isPart type (s.baseAt type c) c with
          | false =>
              refine ⟨[], stores_stop (body_stops htext h.hexFree hpart
                fun _ => .inr (.inr h.ndigit)) rfl, longest_number_nil ?_⟩
              rintro d r hd
              cases hd
              exact .inr (by rwa [← hat])
          | true =>
              obtain ⟨q, hbody, htook, hqbase, hlcval⟩ := body_part htext height hpart
              have hnext : (q.next c rest).cpos = 1 := htook.cpos.trans (by rw [h.cpos])
              have hqbase' : (q.next c rest).base = s.baseAt type c := hqbase
              by_cases hhex : ∃ x r, rest = x :: r ∧ Hex type c len x
              · -- the x is the second character
                obtain ⟨x, r, rfl, hhex⟩ := hhex
                obtain ⟨len, rfl⟩ := Nat.exists_eq_add_of_le' hhex.width
                have hbody₁ := body_cons type (s := q.next c (x :: r)) rfl
                rw [if_pos ⟨hhex.letter, hhex.kind, by rw [hnext],
                  lcval_zero h hhex.zero hlcval⟩] at hbody₁
                have hfree : (Scan.next { (q.next c (x :: r)).seen type x with base := 16 }
                    x r).HexFree type := by
                  rintro y r' - ⟨-, -, hcpos, -⟩
                  have hthird : (q.next c (x :: r)).cpos + 1 + 1 = 2 := hcpos
                  omega
                obtain ⟨t, ht, hlongest⟩ := stores_parts
                  (s := Scan.next { (q.next c (x :: r)).seen type x with base := 16 } x r)
                  hfree (Nat.succ_pos _) (fun _ => by simp [Scan.next]) (.inr (.inr rfl))
                refine ⟨c :: x :: t, stores_cons hbody htook.numbuf (htook.text.trans htext)
                  (stores_cons hbody₁ rfl rfl ht), ?_⟩
                have hbehind : Longest (fun p => IsNumber type (len + 1 + 1) (c :: p)) (x :: r)
                    (x :: t) := hlongest.cons (number_hex hhex)
                exact hbehind.cons fun p => Iff.rfl
              · obtain ⟨t, ht, hlongest⟩ : ∃ t, Stores type len (q.next c rest) t ∧
                    Longest (Parts type (s.baseAt type c) len) rest t := by
                  cases len with
                  | zero => exact ⟨[], stores_zero type _, longest_parts_nil (.inl rfl)⟩
                  | succ len =>
                      have hfree := next_hexFree h hpart hlcval
                        (fun x r hr hx => hhex ⟨x, r, hr, hx⟩) (Nat.succ_pos len)
                      have hexp : isFloat type = false ∨ (q.next c rest).expseen = true ∨
                          (q.next c rest).base = 16 := by
                        rw [hqbase']
                        exact (float_base h htype).imp_right .inr
                      rw [← hqbase']
                      exact stores_parts hfree (Nat.le_of_eq hnext.symm)
                        (fun hfloat => by rw [hqbase']; exact baseAt_float hfloat (height hfloat)) hexp
                refine ⟨c :: t, stores_cons hbody htook.numbuf (htook.text.trans htext) ht, ?_⟩
                have hparts : Longest (Parts type (s.baseAt type c) (len + 1)) (c :: rest)
                  (c :: t) :=
                  hlongest.cons (parts_cons hpart)
                exact hparts.congr fun p hp => number_parts hat htype hhex hp

/-- The text behind the white space. -/
def behindBlanks (sctab : Table) (text : List Char) : List Char := text.dropWhile (sctab.has SPC)

def signOf (text : List Char) : List Char :=
  if text.head? = some '-' ∨ text.head? = some '+' then text.take 1 else []

def signStored (text : List Char) : ℕ := if text.head? = some '-' then 1 else 0

theorem takeSign_fresh (type : Char) (n : ℤ) (len : ℕ) (text : List Char) :
    ∃ s negflg, takeSign len ⟨startBase type, 0, 0, false, 0, [], n, text⟩ =
        (negflg, len - (signOf text).length, s) ∧ Fresh type s ∧
      s.text = text.drop (signOf text).length ∧ s.numbuf.length = signStored text := by
  unfold takeSign signOf signStored
  by_cases hminus : text.head? = some '-'
  · obtain ⟨rest, rfl⟩ : ∃ rest, text = '-' :: rest := by
      cases text with
      | nil => cases hminus
      | cons c rest => exact ⟨rest, by rw [Option.some.inj hminus]⟩
    exact ⟨_, _, rfl, ⟨rfl, rfl, rfl, rfl, rfl⟩, rfl, rfl⟩
  · by_cases hplus : text.head? = some '+'
    · obtain ⟨rest, rfl⟩ : ∃ rest, text = '+' :: rest := by
        cases text with
        | nil => cases hplus
        | cons c rest => exact ⟨rest, by rw [Option.some.inj hplus]⟩
      exact ⟨_, _, rfl, ⟨rfl, rfl, rfl, rfl, rfl⟩, rfl, rfl⟩
    · rw [if_neg hminus, if_neg hplus, if_neg (by tauto), if_neg hminus]
      exact ⟨_, _, rfl, ⟨rfl, rfl, rfl, rfl, rfl⟩, rfl, rfl⟩

/-- Behind the loop one place has to be left for the NUL when a value is stored. -/
theorem finish_fits {size : Size} {negflg ptr : Bool} :
    (∃ r, (if ptr then finish type size negflg s else .ok (finishSuppressed negflg s)) = .ok r) ↔
      (ptr = true → s.numbuf.length < 64) := by
  cases ptr with
  | false => exact iff_of_true ⟨_, rfl⟩ nofun
  | true =>
      rw [if_pos rfl]
      unfold finish
      dsimp only
      by_cases hnone : s.numbuf = [] ∨ negflg = true ∧ s.numbuf.length = 1
      · rw [if_pos hnone]
        refine iff_of_true ⟨_, rfl⟩ fun _ => ?_
        rcases hnone with hempty | ⟨-, hone⟩
        · rw [hempty]
          decide
        · omega
      · rw [if_neg hnone]
        by_cases hfull : 64 ≤ s.numbuf.length
        · rw [if_pos hfull]
          refine iff_of_false nofun fun h => ?_
          have := h rfl
          omega
        · rw [if_neg hfull]
          exact iff_of_true ⟨_, rfl⟩ fun _ => by omega

/-- The array is large enough if and only if no number at the start of the text is too long: with
the minus sign, and with the NUL if the value is stored, 64 characters at most. -/
theorem innumLow_fits_iff (sctab : Table) (type : Char) (len : ℤ) (size : Size) (ptr : Bool)
    (text : List Char) :
    (∃ r, innumLow sctab type len size ptr text = .ok r) ↔
      let line := behindBlanks sctab text
      ∀ p, IsNumber type (len.toNat - (signOf line).length) p →
        p <+: line.drop (signOf line).length →
        signStored line + p.length + (if ptr then 1 else 0) ≤ 64 := by
  unfold innumLow behindBlanks
  dsimp only
  generalize text.dropWhile (sctab.has SPC) = line
  obtain ⟨s, negflg, hsign, hfresh, htext, hbuf⟩ := takeSign_fresh type
    ((text.takeWhile (sctab.has SPC)).length + if line = [] then 0 else 1) len.toNat line
  rw [hsign]
  dsimp only
  obtain ⟨t, hstores, hlongest⟩ := stores_number hfresh
  rw [htext] at hlongest
  have hminus : signStored line ≤ 1 := by
    unfold signStored
    split_ifs <;> decide
  have hbound : (∀ p, IsNumber type (len.toNat - (signOf line).length) p →
      p <+: line.drop (signOf line).length →
      signStored line + p.length + (if ptr then 1 else 0) ≤ 64) ↔
      signStored line + t.length + (if ptr then 1 else 0) ≤ 64 := by
    constructor
    · exact fun hall => hall t hlongest.holds hlongest.isPrefix
    · intro ht p hp hstarts
      have := hlongest.longest p hp hstarts
      omega
  rw [hbound]
  have hloop := hstores (by omega)
  rw [hbuf] at hloop
  by_cases hroom : signStored line + t.length ≤ 64
  · rw [if_pos hroom] at hloop
    obtain ⟨s', hs', hstored⟩ := hloop
    have hlen : s'.numbuf.length = signStored line + t.length := by
      rw [hstored, List.length_append, hbuf]
    rw [hs', finish_fits, hlen]
    cases ptr with
    | false => exact iff_of_true nofun hroom
    | true => exact ⟨fun h => h rfl, fun h _ => h⟩
  · rw [if_neg hroom] at hloop
    rw [hloop]
    exact iff_of_false nofun fun h => hroom (by omega)

/-- 64 digits fill the array, and the NUL comes behind it. -/
theorem innumLow_overruns :
    innumLow initialTable 'd' defaultWidth .regular true (List.replicate 64 '1') =
      .error .overrun := by
  decide +kernel

end DjgppLibc.Doscan
