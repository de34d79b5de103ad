import DjgppLibc.Strtol

/-!
# The subject sequence of a conversion

The grammar of the numbers is stated on its own, as what may stand at the start of a string, and
the conversions have to end behind the longest such sequence. They do, but for a prefix `0x`
without a hexadecimal digit behind it, where the zero alone is a number that they do not take.
-/
namespace DjgppLibc.Strtol
open LimitedNumbers

def digitValue (c : UInt8) : Option ℕ :=
  if 0x30 ≤ c.toNat ∧ c.toNat ≤ 0x39 then some (c.toNat - 0x30)
  else if 0x61 ≤ c.toNat ∧ c.toNat ≤ 0x7A then some (c.toNat - 0x61 + 10)
  else if 0x41 ≤ c.toNat ∧ c.toNat ≤ 0x5A then some (c.toNat - 0x41 + 10)
  else none

def isDigitIn (base : ℕ) (c : UInt8) : Bool := (digitValue c).any (· < base)

def plainBase (base : ℕ) (digits : List UInt8) : ℕ :=
  if base = 0 then if digits.head? = some 0x30 then 8 else 10 else base

inductive Body (base : ℕ) : List UInt8 → Prop
  | plain {digits : List UInt8} : digits ≠ [] →
      (∀ c ∈ digits, isDigitIn (plainBase base digits) c = true) → Body base digits
  | hex {x : UInt8} {digits : List UInt8} : base = 0 ∨ base = 16 → x = 0x78 ∨ x = 0x58 →
      digits ≠ [] → (∀ c ∈ digits, isDigitIn 16 c = true) → Body base (0x30 :: x :: digits)

inductive Subject (base : ℕ) : List UInt8 → Prop
  | mk {space sign body : List UInt8} : (∀ c ∈ space, isspace c = true) →
      sign = [] ∨ sign = [0x2D] ∨ sign = [0x2B] → Body base body →
      Subject base (space ++ (sign ++ body))

structure Longest (P : List UInt8 → Prop) (text t : List UInt8) : Prop where
  start : t <+: text
  holds : P t
  longest : ∀ u, u <+: text → P u → u.length ≤ t.length

/-- A pointer behind the longest subject sequence, or at the string if it has none. -/
structure EndsRight (base : ℕ) (nptr endptr : List UInt8) : Prop where
  behind : ∀ t, Longest (Subject base) nptr t → endptr = nptr.drop t.length
  none : endptr = nptr ↔ ∀ t, t <+: nptr → ¬ Subject base t

theorem toNat_sub_of_toNat_le {c k : UInt8} (h : k.toNat ≤ c.toNat) :
    (c - k).toNat = c.toNat - k.toNat :=
  UInt8.toNat_sub_of_le c k (UInt8.le_iff_toNat_le.mpr h)

/-- The subtractions of the loop do not wrap around. -/
theorem digitOf_toNat (c : UInt8) : (digitOf c).map UInt8.toNat = digitValue c := by
  unfold digitOf digitValue isdigit isalpha isupper islower
  simp only [Bool.and_eq_true, Bool.or_eq_true, decide_eq_true_eq]
  by_cases hdigit : 0x30 ≤ c.toNat ∧ c.toNat ≤ 0x39
  · rw [if_pos hdigit, if_pos hdigit]
    exact congrArg some (toNat_sub_of_toNat_le (by exact hdigit.1))
  rw [if_neg hdigit, if_neg hdigit]
  by_cases hupper : 0x41 ≤ c.toNat ∧ c.toNat ≤ 0x5A
  · have hsub := toNat_sub_of_toNat_le (c := c) (k := 0x41 - 10) (by show 55 ≤ c.toNat; omega)
    rw [if_pos (.inl hupper), if_pos hupper, if_neg (by omega), if_pos hupper, Option.map_some,
      hsub]
    show some (c.toNat - 55) = some (c.toNat - 0x41 + 10)
    congr 1
    omega
  by_cases hlower : 0x61 ≤ c.toNat ∧ c.toNat ≤ 0x7A
  · have hsub := toNat_sub_of_toNat_le (c := c) (k := 0x61 - 10) (by show 87 ≤ c.toNat; omega)
    rw [if_pos (.inr hlower), if_neg hupper, if_pos hlower, Option.map_some, hsub]
    show some (c.toNat - 87) = some (c.toNat - 0x61 + 10)
    congr 1
    omega
  · rw [if_neg (by tauto), if_neg hlower, if_neg hupper]
    rfl

theorem digitRun_eq (base : ℕ) (s : List UInt8) :
    (digitRun base s).length = (s.takeWhile (isDigitIn base)).length := by
  induction s with
  | nil => rfl
  | cons ch s ih =>
      have hvalue := digitOf_toNat ch
      rw [digitRun, List.takeWhile_cons, isDigitIn, ← hvalue]
      cases digitOf ch with
      | none => rfl
      | some c =>
          by_cases hc : c.toNat < base
          · have htrue : ((some c).map UInt8.toNat).any (· < base) = true := by simp [hc]
            rw [htrue]
            simp only [if_pos hc, List.length_cons, if_true, ih]
          · have hfalse : ((some c).map UInt8.toNat).any (· < base) = false := by simp [hc]
            rw [hfalse]
            simp only [if_neg hc, Bool.false_eq_true, if_false, List.length_nil]

theorem digit_not_space {base : ℕ} {c : UInt8} (h : isDigitIn base c = true) :
    isspace c = false ∧ c ≠ 0x2D ∧ c ≠ 0x2B := by
  have hvalue : (digitValue c).isSome = true := by
    unfold isDigitIn at h
    cases hc : digitValue c with
    | none => rw [hc] at h; cases h
    | some v => rfl
  have hrange : 0x30 ≤ c.toNat := by
    unfold digitValue at hvalue
    split_ifs at hvalue <;> first | omega | cases hvalue
  refine ⟨?_, ?_, ?_⟩
  · unfold isspace
    rw [Bool.or_eq_false_iff, Bool.and_eq_false_iff]
    refine ⟨decide_eq_false fun heq => ?_, .inr (decide_eq_false (by omega))⟩
    rw [heq] at hrange
    exact absurd hrange (by decide)
  · rintro rfl
    exact absurd hrange (by decide)
  · rintro rfl
    exact absurd hrange (by decide)

theorem length_le_takeWhile {p : UInt8 → Bool} {s u : List UInt8} (hu : u <+: s)
    (h : ∀ c ∈ u, p c = true) : u.length ≤ (s.takeWhile p).length := by
  obtain ⟨r, rfl⟩ := hu
  rw [List.takeWhile_append_of_pos h, List.length_append]
  exact Nat.le_add_right _ _

theorem Body.head {base : ℕ} {body : List UInt8} (h : Body base body) :
    ∃ b c rest, body = c :: rest ∧ isDigitIn b c = true := by
  cases h with
  | plain hne hdigits =>
      obtain ⟨c, rest, rfl⟩ := List.exists_cons_of_ne_nil hne
      exact ⟨_, c, rest, rfl, hdigits c (List.mem_cons_self ..)⟩
  | hex _ _ _ _ => exact ⟨16, 0x30, _, rfl, by decide⟩

theorem readSign_front (nptr : List UInt8) :
    ∃ space sign, (∀ c ∈ space, isspace c = true) ∧
      (sign = [] ∨ sign = [0x2D] ∨ sign = [0x2B]) ∧
      nptr = space ++ (sign ++ (readSign nptr).2) := by
  have hsplit := (List.takeWhile_append_dropWhile (p := isspace) (l := nptr)).symm
  refine ⟨nptr.takeWhile isspace, ?_⟩
  have hspace : ∀ c ∈ nptr.takeWhile isspace, isspace c = true :=
    List.all_eq_true.mp (List.all_takeWhile ..)
  have hsigned : ∀ k, k ≠ 0 → deref (nptr.dropWhile isspace) = k →
      nptr.dropWhile isspace = [k] ++ (nptr.dropWhile isspace).tail := by
    intro k hk hderef
    cases hs : nptr.dropWhile isspace with
    | nil =>
        rw [hs] at hderef
        exact absurd hderef.symm hk
    | cons c rest =>
        rw [hs] at hderef
        rw [show c = k from hderef]
        rfl
  unfold readSign
  dsimp only
  split_ifs with hminus hplus
  · exact ⟨[0x2D], hspace, .inr (.inl rfl), by
      rw [← hsigned 0x2D (by decide) hminus]; exact hsplit⟩
  · exact ⟨[0x2B], hspace, .inr (.inr rfl), by
      rw [← hsigned 0x2B (by decide) hplus]; exact hsplit⟩
  · exact ⟨[], hspace, .inl rfl, hsplit⟩

theorem readSign_eq {space sign rest : List UInt8} {b : ℕ} {c : UInt8}
    (hspace : ∀ c ∈ space, isspace c = true) (hsign : sign = [] ∨ sign = [0x2D] ∨ sign = [0x2B])
    (hc : isDigitIn b c = true) : (readSign (space ++ (sign ++ c :: rest))).2 = c :: rest := by
  obtain ⟨hnot, hminus, hplus⟩ := digit_not_space hc
  unfold readSign
  rw [List.dropWhile_append_of_pos hspace]
  rcases hsign with rfl | rfl | rfl
  · rw [List.nil_append, List.dropWhile_cons_of_neg (by simp [hnot])]
    have hderef : deref (c :: rest) = c := rfl
    dsimp only
    rw [hderef, if_neg hminus, if_neg hplus]
  · rfl
  · rfl

/-- A subject sequence is made of what `readSign` passes over and a number behind it. -/
theorem Subject.body {base : ℕ} {nptr t : List UInt8} (h : Subject base t) (ht : t <+: nptr) :
    ∃ front body, t = front ++ body ∧ Body base body ∧ nptr = front ++ (readSign nptr).2 ∧
      body <+: (readSign nptr).2 := by
  cases h with
  | @mk space sign body hspace hsign hbody =>
      obtain ⟨rest, rfl⟩ := ht
      obtain ⟨b, c, digits, rfl, hc⟩ := hbody.head
      have hread : (readSign (space ++ (sign ++ c :: digits) ++ rest)).2 = c :: digits ++ rest := by
        rw [List.append_assoc, List.append_assoc]
        exact readSign_eq hspace hsign hc
      refine ⟨space ++ sign, c :: digits, (List.append_assoc ..).symm, hbody, ?_, ?_⟩
      · rw [hread]
        simp only [List.append_assoc]
      · rw [hread]
        exact List.prefix_append _ _

theorem subject_of_body {base : ℕ} {nptr body : List UInt8} (h : Body base body)
    (hb : body <+: (readSign nptr).2) :
    ∃ front, nptr = front ++ (readSign nptr).2 ∧ Subject base (front ++ body) ∧
      front ++ body <+: nptr := by
  obtain ⟨space, sign, hspace, hsign, hnptr⟩ := readSign_front nptr
  rw [← List.append_assoc] at hnptr
  refine ⟨space ++ sign, hnptr, ?_, ?_⟩
  · rw [List.append_assoc]
    exact .mk hspace hsign h
  · conv_rhs => rw [hnptr]
    exact (List.prefix_append_right_inj _).mpr hb

theorem EndsRight.of_none {base : ℕ} {nptr : List UInt8}
    (h : ∀ body, body <+: (readSign nptr).2 → ¬ Body base body) : EndsRight base nptr nptr := by
  have hnone : ∀ t, t <+: nptr → ¬ Subject base t := fun t ht hsubject => by
    obtain ⟨_, body, -, hbody, -, hstart⟩ := hsubject.body ht
    exact h body hstart hbody
  exact ⟨fun t ht => absurd ht.holds (hnone t ht.start), ⟨fun _ => hnone, fun _ => rfl⟩⟩

theorem EndsRight.of_longest {base n : ℕ} {nptr : List UInt8} {body : List UInt8}
    (h : Longest (Body base) (readSign nptr).2 body) (hn : n = body.length) :
    EndsRight base nptr ((readSign nptr).2.drop n) := by
  subst hn
  obtain ⟨front, hnptr, hsubject, hstart⟩ := subject_of_body h.holds h.start
  have hle : ∀ t, t <+: nptr → Subject base t → t.length ≤ front.length + body.length := by
    intro t ht hs
    obtain ⟨front', body', rfl, hbody', hnptr', hstart'⟩ := hs.body ht
    have hlen : front'.length = front.length := by
      have := congrArg List.length (hnptr.symm.trans hnptr')
      simp only [List.length_append] at this
      omega
    rw [List.length_append, hlen]
    exact Nat.add_le_add_left (h.longest body' hstart' hbody') _
  have hdrop : (readSign nptr).2.drop body.length = nptr.drop (front.length + body.length) := by
    conv_rhs => rw [hnptr]
    rw [List.drop_append]
    simp
  obtain ⟨b, c, digits, hcons, -⟩ := h.holds.head
  constructor
  · intro t ht
    have hlonger := ht.longest _ hstart hsubject
    have hshorter := hle t ht.start ht.holds
    rw [List.length_append] at hlonger
    rw [hdrop, show t.length = front.length + body.length by omega]
  · constructor
    · intro heq
      have hlen := congrArg List.length (hdrop.symm.trans heq)
      have hprefixLen := hstart.length_le
      rw [List.length_append] at hprefixLen
      rw [List.length_drop, hcons, List.length_cons] at hlen
      rw [hcons, List.length_cons] at hprefixLen
      omega
    · intro hnone
      exact absurd hsubject (hnone _ hstart)

theorem takeWhile_eq_nil_iff (p : UInt8 → Bool) (s : List UInt8) (hzero : p 0 = false) :
    s.takeWhile p = [] ↔ p (deref s) = false := by
  cases s with
  | nil => simp [deref, hzero]
  | cons c s =>
      rw [List.takeWhile_cons]
      cases hc : p c <;> simp [deref, hc]

theorem plainBase_of_start {base : ℕ} {s u : List UInt8} (hu : u <+: s) (hne : u ≠ []) :
    plainBase base u = plainBase base s := by
  obtain ⟨rest, rfl⟩ := hu
  obtain ⟨c, u, rfl⟩ := List.exists_cons_of_ne_nil hne
  rfl

/-- There is a prefix that goes with the base. -/
def Prefixed (base : ℕ) (s : List UInt8) : Prop :=
  (base = 0 ∨ base = 16) ∧ deref s = 0x30 ∧ (deref s.tail = 0x78 ∨ deref s.tail = 0x58)

instance (base : ℕ) (s : List UInt8) : Decidable (Prefixed base s) :=
  inferInstanceAs (Decidable (_ ∧ _))

section Numbers

variable {base : ℕ} {s : List UInt8}

theorem Prefixed.eq (h : Prefixed base s) :
    ∃ x rest, (x = 0x78 ∨ x = 0x58) ∧ s = 0x30 :: x :: rest := by
  obtain ⟨-, hzero, hx⟩ := h
  cases s with
  | nil => exact absurd hzero (by decide)
  | cons c s =>
      cases s with
      | nil => exact absurd hx (show ¬ ((0 : UInt8) = 0x78 ∨ (0 : UInt8) = 0x58) by decide)
      | cons x rest => exact ⟨x, rest, hx, by rw [show c = 0x30 from hzero]⟩

theorem x_not_hex {x : UInt8} (hx : x = 0x78 ∨ x = 0x58) {b : ℕ} (hb : b ≤ 16) :
    isDigitIn b x = false := by
  have hvalue : digitValue x = some 33 := by rcases hx with rfl | rfl <;> decide
  rw [isDigitIn, hvalue]
  simp only [Option.any_some, decide_eq_false_iff_not]
  omega

/-- Without a prefix the number is the run of digits. -/
theorem plain_body (h : ¬ Prefixed base s) {u : List UInt8} (hu : u <+: s) (hbody : Body base u) :
    u ≠ [] ∧ ∀ c ∈ u, isDigitIn (plainBase base s) c = true := by
  cases hbody with
  | plain hne hdigits =>
      rw [plainBase_of_start hu hne] at hdigits
      exact ⟨hne, hdigits⟩
  | hex hb hx _ _ =>
      obtain ⟨rest, rfl⟩ := hu
      exact absurd ⟨hb, rfl, hx⟩ h

theorem plain_longest (h : ¬ Prefixed base s)
    (hrun : s.takeWhile (isDigitIn (plainBase base s)) ≠ []) :
    Longest (Body base) s (s.takeWhile (isDigitIn (plainBase base s))) where
  start := List.takeWhile_prefix _
  holds := by
    refine .plain hrun ?_
    rw [plainBase_of_start (List.takeWhile_prefix _) hrun]
    exact List.all_eq_true.mp List.all_takeWhile
  longest _ hu hbody := length_le_takeWhile hu (plain_body h hu hbody).2

theorem plain_none (h : ¬ Prefixed base s)
    (hrun : s.takeWhile (isDigitIn (plainBase base s)) = []) {u : List UInt8} (hu : u <+: s) :
    ¬ Body base u := by
  intro hbody
  obtain ⟨hne, hdigits⟩ := plain_body h hu hbody
  have hle := length_le_takeWhile hu hdigits
  rw [hrun] at hle
  exact hne (List.length_eq_zero_iff.mp (Nat.le_zero.mp hle))

theorem hex_longest {x : UInt8} {rest : List UInt8} (hb : base = 0 ∨ base = 16)
    (hx : x = 0x78 ∨ x = 0x58) (hrun : rest.takeWhile (isDigitIn 16) ≠ []) :
    Longest (Body base) (0x30 :: x :: rest) (0x30 :: x :: rest.takeWhile (isDigitIn 16)) where
  start := (List.prefix_cons_inj _).mpr ((List.prefix_cons_inj _).mpr (List.takeWhile_prefix _))
  holds := .hex hb hx hrun (List.all_eq_true.mp List.all_takeWhile)
  longest u hu hbody := by
    cases hbody with
    | @plain _ hne hdigits =>
        rw [plainBase_of_start hu hne] at hdigits
        -- The second character is no digit, so a plain number is the zero alone.
        have hsmall : plainBase base (0x30 :: x :: rest) ≤ 16 := by
          rcases hb with rfl | rfl <;> simp [plainBase]
        have hle := length_le_takeWhile hu hdigits
        rw [List.takeWhile_cons, List.takeWhile_cons, x_not_hex hx hsmall] at hle
        simp only [Bool.false_eq_true, if_false] at hle
        have hone : u.length ≤ 1 := by
          split_ifs at hle
          · exact hle
          · exact hle.trans (Nat.zero_le 1)
        simp only [List.length_cons]
        omega
    | hex _ _ _ hdigits =>
        rw [List.prefix_cons_inj, List.cons_prefix_cons] at hu
        have hle := length_le_takeWhile hu.2 hdigits
        simp only [List.length_cons]
        omega

end Numbers

theorem digitLoop_end (width cut cutlim base : ℕ) (s : List UInt8) (acc : ℕ) (any : ℤ) :
    (digitLoop width cut cutlim base s acc any).2.2 = s.drop (digitRun base s).length ∧
      ((digitLoop width cut cutlim base s acc any).2.1 = 0 ↔ digitRun base s = [] ∧ any = 0) := by
  induction s generalizing acc any with
  | nil => exact ⟨rfl, by simp [digitLoop, digitRun]⟩
  | cons ch s ih =>
      rw [digitLoop, digitRun]
      cases digitOf ch with
      | none => exact ⟨rfl, by simp⟩
      | some c =>
          dsimp only
          by_cases hc : c.toNat < base
          · rw [if_neg (by omega), if_pos hc]
            split_ifs
            · exact ⟨(ih acc (-1)).1, by simp [(ih acc (-1)).2]⟩
            · exact ⟨(ih _ 1).1, by simp [(ih _ 1).2]⟩
          · rw [if_pos (by omega), if_neg hc]
            exact ⟨rfl, by simp⟩

/-- The pointer that every conversion leaves. -/
def endOf (nptr : List UInt8) (base : ℕ) : List UInt8 :=
  if digits nptr base = [] then nptr else (readStart nptr base).s.drop (digits nptr base).length

theorem convert_endptr (width : ℕ) (cut : Bool → ℕ → ℕ × ℕ) (overflow : Bool → ℕ)
    (nptr : List UInt8) (base errno : ℕ) :
    (convert width cut overflow nptr base errno).2.1 = endOf nptr base := by
  obtain ⟨hend, hany⟩ := digitLoop_end width (cut (readStart nptr base).neg
    (readStart nptr base).base).1 (cut (readStart nptr base).neg (readStart nptr base).base).2
    (readStart nptr base).base (readStart nptr base).s 0 0
  have hendptr : (convert width cut overflow nptr base errno).2.1 =
      if (digitLoop width (cut (readStart nptr base).neg (readStart nptr base).base).1
        (cut (readStart nptr base).neg (readStart nptr base).base).2 (readStart nptr base).base
        (readStart nptr base).s 0 0).2.1 ≠ 0
      then (digitLoop width (cut (readStart nptr base).neg (readStart nptr base).base).1
        (cut (readStart nptr base).neg (readStart nptr base).base).2 (readStart nptr base).base
        (readStart nptr base).s 0 0).2.2 else nptr := by
    unfold convert
    dsimp only
    split_ifs <;> rfl
  rw [hendptr, hend, endOf, ite_not]
  exact if_congr (hany.trans (and_iff_left rfl)) rfl rfl

/-- A prefix that no hexadecimal digit follows, where the conversion expects one. -/
def LonePrefix (base : ℕ) (nptr : List UInt8) : Prop :=
  Prefixed base (readSign nptr).2 ∧ isDigitIn 16 (deref (readSign nptr).2.tail.tail) = false

theorem readStart_prefixed {nptr : List UInt8} {base : ℕ} (h : Prefixed base (readSign nptr).2) :
    readStart nptr base = ⟨(readSign nptr).1, 16, (readSign nptr).2.tail.tail⟩ := if_pos h

theorem readStart_s {nptr : List UInt8} {base : ℕ} (h : ¬ Prefixed base (readSign nptr).2) :
    (readStart nptr base).s = (readSign nptr).2 := by
  unfold Prefixed at h
  unfold readStart
  dsimp only
  rw [if_neg h]
  split_ifs <;> rfl

theorem readStart_plain {nptr : List UInt8} {base : ℕ} (h : ¬ Prefixed base (readSign nptr).2)
    (hne : (readSign nptr).2 ≠ []) :
    readStart nptr base =
      ⟨(readSign nptr).1, plainBase base (readSign nptr).2, (readSign nptr).2⟩ := by
  obtain ⟨c, rest, hcons⟩ := List.exists_cons_of_ne_nil hne
  unfold Prefixed at h
  unfold readStart
  dsimp only
  rw [if_neg h, plainBase, hcons]
  split_ifs <;> simp_all [deref]

theorem digits_eq_nil_iff {nptr : List UInt8} {base b : ℕ} {neg : Bool} {s : List UInt8}
    (h : readStart nptr base = ⟨neg, b, s⟩) :
    (digits nptr base).length = (s.takeWhile (isDigitIn b)).length ∧
      (digits nptr base = [] ↔ s.takeWhile (isDigitIn b) = []) := by
  have hlen : (digits nptr base).length = (s.takeWhile (isDigitIn b)).length := by
    rw [digits, h]
    exact digitRun_eq b s
  refine ⟨hlen, ?_⟩
  rw [← List.length_eq_zero_iff, hlen, List.length_eq_zero_iff]

theorem endOf_prefixed {nptr : List UInt8} {base : ℕ} (h : Prefixed base (readSign nptr).2) :
    EndsRight base nptr (endOf nptr base) ↔ ¬ LonePrefix base nptr := by
  have hstart := readStart_prefixed h
  obtain ⟨hlen, hnil⟩ := digits_eq_nil_iff hstart
  obtain ⟨x, rest, hx, hs⟩ := h.eq
  rw [hs] at hstart hlen hnil
  dsimp only [List.tail_cons] at hstart hlen hnil
  have hlone : LonePrefix base nptr ↔ rest.takeWhile (isDigitIn 16) = [] := by
    rw [takeWhile_eq_nil_iff _ _ (by decide), LonePrefix, hs]
    exact and_iff_right (hs ▸ h)
  rw [hlone, endOf]
  by_cases hrun : rest.takeWhile (isDigitIn 16) = []
  · -- The zero in front of the `x` is a number, and nothing is taken.
    rw [if_pos (hnil.mpr hrun)]
    refine ⟨fun hends => ?_, fun hne => absurd hrun hne⟩
    have hzero : Body base [0x30] := by
      refine .plain (List.cons_ne_nil _ _) fun c hc => ?_
      rw [List.mem_singleton.mp hc]
      rcases h.1 with rfl | rfl <;> decide
    obtain ⟨front, -, hsubject, hprefix⟩ := subject_of_body hzero
      (show [0x30] <+: (readSign nptr).2 from hs ▸ (List.prefix_cons_inj _).mpr List.nil_prefix)
    exact absurd hsubject (hends.none.mp rfl _ hprefix)
  · rw [if_neg fun hd => hrun (hnil.mp hd), hstart, hlen]
    refine ⟨fun _ => hrun, fun _ => ?_⟩
    have hlongest : Longest (Body base) (readSign nptr).2
        (0x30 :: x :: rest.takeWhile (isDigitIn 16)) := hs ▸ hex_longest h.1 hx hrun
    have hends := EndsRight.of_longest hlongest rfl
    rwa [hs, List.length_cons, List.length_cons, List.drop_succ_cons, List.drop_succ_cons] at hends

theorem endOf_plain {nptr : List UInt8} {base : ℕ} (h : ¬ Prefixed base (readSign nptr).2) :
    EndsRight base nptr (endOf nptr base) := by
  rw [endOf]
  by_cases hs : (readSign nptr).2 = []
  · have hempty : digits nptr base = [] := by
      rw [digits, readStart_s h, hs]
      rfl
    rw [if_pos hempty]
    refine .of_none fun body hbody hholds => ?_
    obtain ⟨b, c, rest, rfl, -⟩ := hholds.head
    rw [hs] at hbody
    exact absurd hbody.length_le (by simp)
  · have hstart := readStart_plain h hs
    obtain ⟨hlen, hnil⟩ := digits_eq_nil_iff hstart
    by_cases hrun : (readSign nptr).2.takeWhile
        (isDigitIn (plainBase base (readSign nptr).2)) = []
    · rw [if_pos (hnil.mpr hrun)]
      exact .of_none fun body => plain_none h hrun
    · rw [if_neg fun hd => hrun (hnil.mp hd), hstart, hlen]
      exact .of_longest (plain_longest h hrun) rfl

theorem endOf_right_iff (base : ℕ) (nptr : List UInt8) :
    EndsRight base nptr (endOf nptr base) ↔ ¬ LonePrefix base nptr := by
  by_cases h : Prefixed base (readSign nptr).2
  · exact endOf_prefixed h
  · exact iff_of_true (endOf_plain h) fun hlone => h hlone.1

theorem strtol_endptr (nptr : List UInt8) (base errno : ℕ) :
    (strtol nptr base errno).endptr = endOf nptr base := by
  unfold strtol
  generalize hr : convert 32 _ _ nptr base errno = r
  rw [← convert_endptr 32 _ _ nptr base errno, hr]

theorem strtoll_endptr (nptr : List UInt8) (base errno : ℕ) :
    (strtoll nptr base errno).endptr = endOf nptr base := by
  unfold strtoll
  generalize hr : convert 64 _ _ nptr base errno = r
  rw [← convert_endptr 64 _ _ nptr base errno, hr]

theorem strtoul_endptr (nptr : List UInt8) (base errno : ℕ) :
    (strtoul nptr base errno).endptr = endOf nptr base := by
  unfold strtoul
  generalize hr : convert 32 _ _ nptr base errno = r
  rw [← convert_endptr 32 _ _ nptr base errno, hr]

theorem strtoull_endptr (nptr : List UInt8) (base errno : ℕ) :
    (strtoull nptr base errno).endptr = endOf nptr base := by
  unfold strtoull
  generalize hr : convert 64 _ _ nptr base errno = r
  rw [← convert_endptr 64 _ _ nptr base errno, hr]

/-- Each of the four conversions takes the longest subject sequence, unless the string has a
prefix without a digit behind it. -/
theorem endptr_right_iff (nptr : List UInt8) (base errno : ℕ) :
    (EndsRight base nptr (strtol nptr base errno).endptr ↔ ¬ LonePrefix base nptr) ∧
    (EndsRight base nptr (strtoll nptr base errno).endptr ↔ ¬ LonePrefix base nptr) ∧
    (EndsRight base nptr (strtoul nptr base errno).endptr ↔ ¬ LonePrefix base nptr) ∧
    (EndsRight base nptr (strtoull nptr base errno).endptr ↔ ¬ LonePrefix base nptr) := by
  rw [strtol_endptr, strtoll_endptr, strtoul_endptr, strtoull_endptr]
  have hiff := endOf_right_iff base nptr
  exact ⟨hiff, hiff, hiff, hiff⟩

/-- For `0xg` in base 0 the pointer stays at the string, but the zero is a number. -/
theorem strtol_lonePrefix :
    (strtol [0x30, 0x78, 0x67] 0 0).endptr = [0x30, 0x78, 0x67] ∧ Subject 0 [0x30] ∧
      ¬ EndsRight 0 [0x30, 0x78, 0x67] (strtol [0x30, 0x78, 0x67] 0 0).endptr := by
  have hsubject : Subject 0 [0x30] :=
    @Subject.mk 0 [] [] [0x30] nofun (.inl rfl) (.plain (List.cons_ne_nil _ _) fun c hc => by
      rw [List.mem_singleton.mp hc]; decide)
  have hend : (strtol [0x30, 0x78, 0x67] 0 0).endptr = [0x30, 0x78, 0x67] := by decide +kernel
  refine ⟨hend, hsubject, fun hends => ?_⟩
  exact hends.none.mp hend [0x30] ⟨[0x78, 0x67], rfl⟩ hsubject

end DjgppLibc.Strtol
