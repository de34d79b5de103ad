import DjgppLibc.DoprntBalance
import DjgppLibc.PrescribedIntegers
import DjgppLibc.PrintScan

/-!
# `_doprnt` and C99

The flags of `_doprnt` are those of the prescribed form. The digits are the
prescribed ones except for a zero in the alternate octal form with the precision
zero, and the value is the prescribed one except for `hh`, which `ARG` reads as
an `int`. The text shows both: its digits give the value back.
-/
namespace DjgppLibc.DoprntLoop
open Doprnt (Flags IsBase horner)
open Doscan (isDigitOf digitOf)

variable {ρ : Type} {base n : ℕ} {upper : Bool} {ds : List Char}

theorem foldl_set (gs : List Flag) (f : Flags) : gs.foldl Flag.set f =
    { f with
      alt := f.alt || decide (.alt ∈ gs)
      ladjust := f.ladjust || decide (.minus ∈ gs)
      zeropad := f.zeropad || decide (.zero ∈ gs)
      sign := if .plus ∈ gs then some '+' else if .space ∈ gs then f.sign.or (some ' ')
        else f.sign } := by
  induction gs generalizing f with
  | nil => simp
  | cons g gs ih =>
      rw [List.foldl_cons, ih]
      cases g with
      | minus => simp [Flag.set]
      | plus => simp [Flag.set]
      | space => cases hs : f.sign <;> simp [Flag.set, hs]
      | alt => simp [Flag.set]
      | zero => simp [Flag.set]

theorem decimal_step_le (c : Char) (ds : List Char) (n : ℕ) :
    10 * n + Doprnt.todigit c ≤ (c :: ds).foldl (fun n c => 10 * n + Doprnt.todigit c) n := by
  induction ds generalizing c n with
  | nil => exact Nat.le_refl _
  | cons c' ds ih =>
      have hstep := ih c' (10 * n + Doprnt.todigit c)
      rw [List.foldl_cons]
      omega

theorem number_eq_decimal (ds : Digits) (h : decimal ds.list ≤ INT_MAX) :
    number ds.list = decimal ds.list := by
  have hfold : ∀ (cs : List Char) (n : ℕ),
      cs.foldl (fun n c => 10 * n + Doprnt.todigit c) n ≤ INT_MAX →
      cs.foldl (fun n c => int (10 * n + Doprnt.todigit c)) (n : ℤ) =
        cs.foldl (fun n c => 10 * n + Doprnt.todigit c) n := by
    intro cs
    induction cs with
    | nil => exact fun n _ => rfl
    | cons c cs ih =>
        intro n hn
        have hle := decimal_step_le c cs n
        unfold INT_MAX at hn
        have hint : int (10 * (n : ℤ) + Doprnt.todigit c) = (10 * n + Doprnt.todigit c : ℕ) := by
          rw [int_eq (by omega) (by omega)]
          omega
        rw [List.foldl_cons, List.foldl_cons, hint]
        exact ih _ hn
  unfold number
  rw [List.takeWhile_eq_self_iff.mpr ds.isdigit]
  exact hfold ds.list 0 h

theorem Width.set_eq (x : Width ρ) (w : ℤ) (f : Flags) (h : x.amount w ≤ INT_MAX) :
    x.set w f =
      ({ f with ladjust := f.ladjust || decide (x.star?.isSome ∧ w < 0) }, (x.amount w : ℤ)) := by
  unfold INT_MAX at h
  cases x with
  | none => simp [set, star?, amount]
  | literal y => simp [set, star?, amount, number_eq_decimal y.toDigits h]
  | star r =>
      change w.natAbs ≤ 2147483647 at h
      simp only [set, starWidth, star?, amount, Option.isSome_some, true_and]
      split_ifs with hw
      · have habs : (w.natAbs : ℤ) = w := by omega
        simp [not_lt.mpr hw, habs]
      · have habs : (w.natAbs : ℤ) = -w := by omega
        rw [int_eq (by omega) (by omega), habs]
        simp [not_le.mp hw]

theorem Prec.set_eq (x : Prec ρ) (p : ℤ) (f : Flags) (hf : f.prec = Option.none)
    (h : ∀ k, x.amount p = some k → k ≤ INT_MAX) :
    x.set p f = { f with prec := x.amount p } := by
  cases x with
  | none =>
      obtain ⟨⟩ := f
      simp only at hf
      simp [set, amount, hf]
  | literal y =>
      have hy := number_eq_decimal y (h _ rfl)
      simp [set, amount, precision, hy]
  | star r => rfl

def Form.flags (f : Form) : Flags :=
  { alt := f.alt, ladjust := f.left, zeropad := f.zero, sign := f.sign, prec := f.prec }

theorem Spec.set_eq (s : Spec ρ) (w p : ℤ) (hw : (s.form w p).width ≤ INT_MAX)
    (hp : ∀ k, (s.form w p).prec = some k → k ≤ INT_MAX) :
    s.set w p = (s.length.set (s.form w p).flags, ((s.form w p).width : ℤ)) := by
  unfold Spec.set
  rw [s.width.set_eq w _ hw, foldl_set]
  dsimp only
  rw [s.prec.set_eq p _ rfl hp]
  simp [Spec.form, Form.flags]

theorem convert_numeral (upper : Bool) (hb : IsBase base) {fuel : ℕ} (hn : n < base ^ fuel)
    (h0 : n ≠ 0) (t : List Char) :
    Doprnt.convert base upper fuel n t = numeral base upper n ++ t := by
  induction fuel generalizing n t with
  | zero =>
      rw [Nat.pow_zero] at hn
      omega
  | succ fuel ih =>
      have hdigits := Nat.digits_def' hb.two_le (Nat.pos_of_ne_zero h0)
      unfold Doprnt.convert numeral
      dsimp only
      rw [hdigits]
      split_ifs with hdiv
      · simp [hdiv]
      · rw [ih (hb.div_lt hn) hdiv]
        simp [numeral]

theorem numeral_zero (base : ℕ) (upper : Bool) : numeral base upper 0 = [] := by
  simp [numeral]

theorem numeral_digits (hb : IsBase base) (upper : Bool) (n : ℕ) :
    ∀ c ∈ numeral base upper n, isDigitOf base c = true := by
  intro c hc
  unfold numeral at hc
  obtain ⟨k, hk, rfl⟩ := List.mem_map.mp hc
  have hlt := Nat.digits_lt_base hb.two_le (List.mem_reverse.mp hk)
  rw [← Nat.mod_eq_of_lt hlt]
  exact Doprnt.isDigitOf_digit hb upper k

theorem horner_numeral (hb : IsBase base) (upper : Bool) (n : ℕ) :
    horner base 0 (numeral base upper n) = n := by
  rcases Nat.eq_zero_or_pos n with rfl | hpos
  · rw [numeral_zero]
    rfl
  · have hfuel : n < base ^ n := Nat.lt_pow_self hb.two_le
    have hconvert := convert_numeral upper hb hfuel hpos.ne' []
    rw [List.append_nil] at hconvert
    rw [← hconvert]
    exact Doprnt.convert_value upper hb hfuel []

theorem numeral_head (hb : IsBase base) (upper : Bool) (h0 : n ≠ 0) :
    ∃ c r, numeral base upper n = c :: r ∧ c ≠ '0' := by
  have hfuel : n < base ^ n := Nat.lt_pow_self hb.two_le
  have hconvert := convert_numeral upper hb hfuel h0 []
  rw [List.append_nil] at hconvert
  rw [← hconvert]
  exact Doprnt.convert_head upper hb hfuel h0 []

theorem isDigitOf_zero (hb : IsBase base) : isDigitOf base '0' = true := by
  rcases hb with rfl | rfl | rfl <;> decide

/-- Zeros and a numeral: in the alternate octal form there is at least one zero. -/
theorem preciseDigits_eq (hb : IsBase base) (upper octal : Bool) (prec n : ℕ) :
    preciseDigits base upper octal prec n =
      List.replicate (if octal then max (prec - (numeral base upper n).length) 1
        else prec - (numeral base upper n).length) '0' ++ numeral base upper n := by
  unfold preciseDigits
  cases octal with
  | false => rfl
  | true =>
      rcases Nat.eq_zero_or_pos (prec - (numeral base upper n).length) with hzero | hpos
      · have hhead : (numeral base upper n).head? ≠ some '0' := by
          rcases eq_or_ne n 0 with rfl | h0
          · rw [numeral_zero]
            exact fun h => nomatch h
          · obtain ⟨c, r, hc, hne⟩ := numeral_head hb upper h0
            rw [hc]
            exact fun h => hne (Option.some.inj h)
        simp [hzero, hhead]
      · obtain ⟨k, hk⟩ : ∃ k, prec - (numeral base upper n).length = k + 1 :=
          ⟨prec - (numeral base upper n).length - 1, by omega⟩
        simp [hk, List.replicate_succ]

theorem zeros_digits (hb : IsBase base) (upper : Bool) (k n : ℕ) :
    horner base 0 (List.replicate k '0' ++ numeral base upper n) = n ∧
      ∀ c ∈ List.replicate k '0' ++ numeral base upper n, isDigitOf base c = true := by
  refine ⟨?_, fun c hc => ?_⟩
  · rw [Doprnt.horner_append, Doprnt.horner_zeros, horner_numeral hb]
  · rcases List.mem_append.mp hc with hc | hc
    · rw [(List.mem_replicate.mp hc).2]
      exact isDigitOf_zero hb
    · exact numeral_digits hb upper n c hc

/-- The precision as `number` passes it on. -/
def dprec (prec : Option ℕ) : ℤ :=
  match prec with
  | none => -1
  | some prec => prec

/-- The digits that `_doprnt` puts: those of the precision, then those of the value. -/
def putDigits (f : Flags) (upper : Bool) (base : ℕ) (v : BitVec 64) : List Char :=
  let t := Doprnt.figures f upper base v
  List.replicate (dprec f.prec - t.length).toNat '0' ++ t

/-- A zero in octal, with the alternate form and the precision zero. -/
def OctalZero (f : Flags) (base n : ℕ) : Prop :=
  f.alt = true ∧ base = 8 ∧ f.prec = some 0 ∧ n = 0

instance (f : Flags) (base n : ℕ) : Decidable (OctalZero f base n) :=
  inferInstanceAs (Decidable (_ ∧ _))

def ownZeros (f : Flags) (base n : ℕ) : ℕ :=
  if n = 0 then if f.prec = some 0 then 0 else 1 else if f.alt ∧ base = 8 then 1 else 0

variable {f : Flags} {v : BitVec 64}

theorem figures_eq (hb : IsBase base) (upper : Bool) (hn : Doprnt.printed f v = n)
    (hv : v = 0 ↔ n = 0) : Doprnt.figures f upper base v =
      List.replicate (ownZeros f base n) '0' ++ numeral base upper n := by
  have hlt := Doprnt.printed_lt f v
  have hfuel : n < base ^ 64 := by
    have h2 : (2 : ℕ) ^ 64 ≤ base ^ 64 := Nat.pow_le_pow_left hb.two_le 64
    omega
  unfold Doprnt.figures
  change (if v ≠ 0 ∨ f.prec ≠ some 0 then
    if f.alt ∧ base = 8 ∧ (Doprnt.convert base upper 64 (Doprnt.printed f v) []).head? ≠ some '0'
    then '0' :: Doprnt.convert base upper 64 (Doprnt.printed f v) []
    else Doprnt.convert base upper 64 (Doprnt.printed f v) [] else []) = _
  rw [hn]
  unfold ownZeros
  rcases eq_or_ne n 0 with rfl | h0
  · rw [numeral_zero, Doprnt.convert_zero base upper 63, if_pos rfl]
    have hzero : v = 0 := hv.mpr rfl
    by_cases hprec : f.prec = some 0 <;> simp [hzero, hprec]
  · obtain ⟨c, r, hc, hne⟩ := numeral_head hb upper h0
    have hhead : (numeral base upper n).head? ≠ some '0' := by
      rw [hc]
      exact fun h => hne (Option.some.inj h)
    rw [convert_numeral upper hb hfuel h0, List.append_nil, if_neg h0,
      if_pos (.inl fun h => h0 (hv.mp h))]
    by_cases hoctal : f.alt = true ∧ base = 8
    · rw [if_pos ⟨hoctal.1, hoctal.2, hhead⟩, if_pos hoctal]
      rfl
    · rw [if_neg (fun h => hoctal ⟨h.1, h.2.1⟩), if_neg hoctal]
      rfl

theorem putDigits_zeros (hb : IsBase base) (upper : Bool) (hn : Doprnt.printed f v = n)
    (hv : v = 0 ↔ n = 0) : putDigits f upper base v =
      List.replicate ((dprec f.prec - (ownZeros f base n + (numeral base upper n).length : ℕ)).toNat +
        ownZeros f base n) '0' ++ numeral base upper n := by
  unfold putDigits
  rw [figures_eq hb upper hn hv]
  dsimp only
  rw [List.length_append, List.length_replicate, ← List.append_assoc,
    List.replicate_append_replicate]

theorem numeral_length_pos (hb : IsBase base) (upper : Bool) (h0 : n ≠ 0) :
    0 < (numeral base upper n).length := by
  obtain ⟨c, r, hc, -⟩ := numeral_head hb upper h0
  rw [hc, List.length_cons]
  omega

theorem putDigits_octalZero (hb : IsBase base) (upper : Bool) (hn : Doprnt.printed f v = n)
    (hv : v = 0 ↔ n = 0) (h : OctalZero f base n) : putDigits f upper base v = [] := by
  obtain ⟨-, -, hprec, rfl⟩ := h
  rw [putDigits_zeros hb upper hn hv, numeral_zero]
  simp [ownZeros, hprec, dprec]

/-- The digits are the prescribed ones. -/
theorem putDigits_eq (hb : IsBase base) (upper : Bool) (hn : Doprnt.printed f v = n)
    (hv : v = 0 ↔ n = 0) (h : ¬ OctalZero f base n) :
    putDigits f upper base v = preciseDigits base upper (f.alt && base = 8) (f.prec.getD 1) n := by
  rw [putDigits_zeros hb upper hn hv, preciseDigits_eq hb]
  congr 2
  unfold OctalZero at h
  unfold ownZeros dprec
  rcases eq_or_ne n 0 with rfl | h0
  · rw [numeral_zero]
    by_cases hoctal : f.alt = true ∧ base = 8
    · have hprec : f.prec ≠ some 0 := fun hp => h ⟨hoctal.1, hoctal.2, hp, rfl⟩
      cases hp : f.prec with
      | none => simp [hoctal]
      | some k =>
          have hk : k ≠ 0 := fun hk => hprec (by rw [hp, hk])
          simp [hoctal, hk]
          omega
    · have hflag : (f.alt && decide (base = 8)) = false := by simpa using hoctal
      rw [hflag]
      cases hp : f.prec with
      | none => simp
      | some k =>
          by_cases hk : k = 0
          · simp [hk]
          · simp [hk]
            omega
  · have hlen := numeral_length_pos hb upper h0
    by_cases hoctal : f.alt = true ∧ base = 8
    · cases hp : f.prec with
      | none =>
          simp [hoctal, h0]
          omega
      | some k =>
          simp [hoctal, h0]
          omega
    · have hflag : (f.alt && decide (base = 8)) = false := by simpa using hoctal
      rw [hflag]
      cases hp : f.prec with
      | none =>
          simp [hoctal, h0]
          omega
      | some k => simp [hoctal, h0]

/-- The width behind the sign, the prefix and the digits. -/
def paddingOf (f : Flags) (width dprec : ℤ) (hex : Option Char) (size : ℕ) : ℕ :=
  if !f.ladjust && !f.zeropad && width = 0 then 0
  else (width - realSize f.sign hex dprec size).toNat

theorem pforw_layout (f : Flags) (width dprec : ℤ) (hex : Option Char) (t : List Char) :
    (pforw f width dprec hex t).1 = layout f.ladjust f.zeropad
      (paddingOf f width dprec hex t.length) f.sign.toList (hexPrefix hex)
      (List.replicate (dprec - t.length).toNat '0' ++ t) := by
  unfold pforw layout paddingOf
  cases f.ladjust with
  | true => simp
  | false =>
      cases f.zeropad with
      | true => simp only [Bool.not_false, Bool.not_true, Bool.and_true, Bool.and_false,
          Bool.false_and, Bool.false_eq_true, if_false, if_true, List.nil_append,
          List.append_nil, List.append_assoc]
      | false => by_cases hw : width = 0 <;> simp [hw]

theorem paddingOf_eq (f : Flags) (width : ℕ) (dprec : ℤ) (hex : Option Char) (t : List Char)
    (h : (f.sign.toList ++ hexPrefix hex ++
      (List.replicate (dprec - t.length).toNat '0' ++ t)).length ≤ INT_MAX) :
    paddingOf f width dprec hex t.length = width - (f.sign.toList ++ hexPrefix hex ++
      (List.replicate (dprec - t.length).toNat '0' ++ t)).length := by
  simp only [List.length_append, List.length_replicate] at h ⊢
  have hreal := realSize_eq f.sign hex dprec (Int.natCast_nonneg t.length) (by omega)
  unfold paddingOf
  split_ifs with hw
  · have hzero : width = 0 := by
      simp only [Bool.and_eq_true, decide_eq_true_eq] at hw
      exact Int.natCast_eq_zero.mp hw.2
    omega
  · omega

/-- The flags that `number` goes on with. -/
def settle (f : Flags) : Flags := { f with zeropad := f.zeropad && f.prec.isNone }

theorem numberField_eq (f : Flags) (width : ℤ) (ch : Char) (base : ℕ) (hex : Bool)
    (v : BitVec 64) :
    numberField f width ch base hex v = pforw (settle f) width (dprec f.prec)
      (if hex then some ch else none) (Doprnt.figures f (ch = 'X') base v) := by
  obtain ⟨longint, longdbl, shortint, charint, alt, ladjust, zeropad, grouping, sign, w, prec⟩ := f
  cases prec with
  | none =>
      unfold settle
      simp only [Option.isNone_none, Bool.and_true]
      rfl
  | some k =>
      unfold settle
      simp only [Option.isNone_some, Bool.and_false]
      rfl

theorem numberField_layout (f : Flags) (width : ℕ) (ch : Char) (base : ℕ) (hex : Bool)
    (v : BitVec 64) {pre : List Char} (hpre : hexPrefix (if hex then some ch else none) = pre) :
    ∃ k, (numberField f width ch base hex v).1 = layout f.ladjust (f.zeropad && f.prec.isNone) k
        f.sign.toList pre (putDigits f (ch = 'X') base v) ∧
      ((f.sign.toList ++ pre ++ putDigits f (ch = 'X') base v).length ≤ INT_MAX →
        k = width - (f.sign.toList ++ pre ++ putDigits f (ch = 'X') base v).length) := by
  subst hpre
  rw [numberField_eq, pforw_layout]
  exact ⟨_, rfl, paddingOf_eq (settle f) width (dprec f.prec) _ _⟩

theorem layout_length (left zero : Bool) (k : ℕ) (sign pre ds : List Char) :
    (layout left zero k sign pre ds).length = (sign ++ pre ++ ds).length + k := by
  unfold layout
  cases left <;> cases zero <;> simp <;> omega

theorem mem_layout (left zero : Bool) (k : ℕ) (sign pre ds : List Char) (c : Char) (hc : c ≠ ' ')
    (hc0 : c ≠ '0') : c ∈ layout left zero k sign pre ds ↔ c ∈ sign ∨ c ∈ pre ∨ c ∈ ds := by
  unfold layout
  cases left <;> cases zero <;> simp [hc, hc0]

/-- What may stand in front of the digits: nothing, or the prefix in hexadecimal. -/
def IsPrefix (base : ℕ) (pre : List Char) : Prop :=
  pre = [] ∨ base = 16 ∧ (pre = ['0', 'x'] ∨ pre = ['0', 'X'])

def IsSign (sign : List Char) : Prop :=
  sign = [] ∨ sign = [' '] ∨ sign = ['+'] ∨ sign = ['-']

theorem filter_blanks (hb : IsBase base) (k : ℕ) :
    (List.replicate k ' ').filter (isDigitOf base) = [] := by
  have hblank : isDigitOf base ' ' = false := by rcases hb with rfl | rfl | rfl <;> decide
  rw [List.filter_replicate, hblank]
  rfl

theorem filter_zeros (hb : IsBase base) (k : ℕ) :
    (List.replicate k '0').filter (isDigitOf base) = List.replicate k '0' := by
  rw [List.filter_replicate, isDigitOf_zero hb]
  rfl

theorem IsSign.filter {sign : List Char} (h : IsSign sign) (hb : IsBase base) :
    sign.filter (isDigitOf base) = [] := by
  rcases hb with rfl | rfl | rfl <;> rcases h with rfl | rfl | rfl | rfl <;> decide

theorem IsPrefix.filter {pre : List Char} (h : IsPrefix base pre) :
    ∃ j, pre.filter (isDigitOf base) = List.replicate j '0' ∧ (pre = [] → j = 0) := by
  rcases h with rfl | ⟨rfl, rfl | rfl⟩
  · exact ⟨0, rfl, fun _ => rfl⟩
  · exact ⟨1, by decide, fun h => nomatch h⟩
  · exact ⟨1, by decide, fun h => nomatch h⟩

/-- The digits of a field are zeros and those of its number. -/
theorem filter_layout (hb : IsBase base) (left zero : Bool) (k : ℕ) {sign pre : List Char}
    (hsign : IsSign sign) (hpre : IsPrefix base pre) (hds : ∀ c ∈ ds, isDigitOf base c = true) :
    ∃ j, (layout left zero k sign pre ds).filter (isDigitOf base) = List.replicate j '0' ++ ds ∧
      (zero = false → pre = [] → j = 0) := by
  obtain ⟨j, hj, hnone⟩ := hpre.filter
  have hself : ds.filter (isDigitOf base) = ds := List.filter_eq_self.mpr hds
  unfold layout
  cases left with
  | true =>
      refine ⟨j, ?_, fun _ => hnone⟩
      simp [hsign.filter hb, hj, hself, filter_blanks hb]
  | false =>
      cases zero with
      | true =>
          refine ⟨j + k, ?_, fun h => nomatch h⟩
          simp only [List.filter_append, hsign.filter hb, hj, hself, filter_zeros hb,
            List.nil_append, Bool.false_eq_true, if_false, if_true, List.replicate_add,
            List.append_assoc]
      | false =>
          refine ⟨j, ?_, fun _ => hnone⟩
          simp [hsign.filter hb, hj, hself, filter_blanks hb]

theorem horner_layout (hb : IsBase base) (left zero : Bool) (k : ℕ) {sign pre : List Char}
    (hsign : IsSign sign) (hpre : IsPrefix base pre) (hds : ∀ c ∈ ds, isDigitOf base c = true) :
    horner base 0 ((layout left zero k sign pre ds).filter (isDigitOf base)) =
      horner base 0 ds := by
  obtain ⟨j, hj, -⟩ := filter_layout hb left zero k hsign hpre hds
  rw [hj, Doprnt.horner_append, Doprnt.horner_zeros]

theorem minus_mem_layout (hb : IsBase base) (left zero : Bool) (k : ℕ) {sign pre : List Char}
    (hpre : IsPrefix base pre) (hds : ∀ c ∈ ds, isDigitOf base c = true) :
    '-' ∈ layout left zero k sign pre ds ↔ '-' ∈ sign := by
  have hdigit : '-' ∉ ds := by
    intro hmem
    have hminus : isDigitOf base '-' = false := by rcases hb with rfl | rfl | rfl <;> decide
    rw [hds _ hmem] at hminus
    cases hminus
  have hpre' : '-' ∉ pre := by
    rcases hpre with rfl | ⟨-, rfl | rfl⟩ <;> decide
  rw [mem_layout _ _ _ _ _ _ _ (by decide) (by decide)]
  simp [hdigit, hpre']

/-- The bits that `ARG` takes of the argument: `CHARINT` makes no difference. -/
def Length.readBits : Length → ℕ
  | .h => 16
  | .ll | .j => 64
  | .none | .hh | .l | .z | .t => 32

variable {m : Length} {x : BitVec 64} {F : Form}

theorem argSigned_eq (m : Length) (F : Form) (x : BitVec 64) :
    Doprnt.argSigned (m.set F.flags) x = (x.setWidth m.readBits).signExtend 64 := by
  cases m <;> simp [Doprnt.argSigned, Length.set, setH, setL, Form.flags, Length.readBits]

theorem argUnsigned_eq (m : Length) (F : Form) (x : BitVec 64) :
    Doprnt.argUnsigned (m.set F.flags) x = (x.setWidth m.readBits).setWidth 64 := by
  cases m <;> simp [Doprnt.argUnsigned, Length.set, setH, setL, Form.flags, Length.readBits]

/-- The modifiers leave what the text depends on alone. -/
theorem set_flags (m : Length) (F : Form) :
    (m.set F.flags).ladjust = F.left ∧ (m.set F.flags).zeropad = F.zero ∧
      (m.set F.flags).alt = F.alt ∧ (m.set F.flags).prec = F.prec ∧
      (m.set F.flags).sign = F.sign := by
  cases m <;> exact ⟨rfl, rfl, rfl, rfl, rfl⟩

theorem readBits_le (m : Length) : m.readBits ≤ 64 ∧
    ((m.set F.flags).longdbl = false → m.readBits ≤ 32) := by
  cases m <;> simp [Length.readBits, Length.set, setL, Form.flags]

theorem toNat_magnitude (x : BitVec 64) :
    (if x.slt 0 then -x else x).toNat = x.toInt.natAbs := by
  have hx := BitVec.toInt_eq_toNat_cond x
  have hlt := x.isLt
  have hneg := BitVec.toNat_neg x
  have hslt : x.slt 0 = decide (x.toInt < 0) := rfl
  rw [hslt]
  split_ifs at hx ⊢ with h₁ h₂ h₂ <;> simp only [decide_eq_true_eq] at * <;> omega

theorem printed_magnitude (f : Flags) (x : BitVec 64)
    (h : f.longdbl = false → x.toInt.natAbs < 4294967296) :
    Doprnt.printed f (if x.slt 0 then -x else x) = x.toInt.natAbs := by
  unfold Doprnt.printed
  cases hl : f.longdbl with
  | true => exact toNat_magnitude x
  | false =>
      have hsmall := h hl
      rw [if_neg (by decide), BitVec.toNat_setWidth, toNat_magnitude]
      exact Nat.mod_eq_of_lt hsmall

theorem eq_zero_of_toNat {y : BitVec 64} (h : y.toNat = n) : y = 0 ↔ n = 0 := by
  rw [← h, ← BitVec.toNat_inj]
  rfl

theorem printed_unsigned (f : Flags) (x : BitVec 64) (h : f.longdbl = false →
      x.toNat < 4294967296) :
    Doprnt.printed f x = x.toNat := by
  unfold Doprnt.printed
  cases hl : f.longdbl with
  | true => rfl
  | false =>
      have hsmall := h hl
      rw [if_neg (by decide), BitVec.toNat_setWidth]
      exact Nat.mod_eq_of_lt hsmall

/-- A number with its sign as `_doprnt` puts it: `F` is the form of the directive, `v` holds the
magnitude `n`. -/
def numberIn (F : Form) (m : Length) (ch : Char) (base : ℕ) (sign : Option Char) (v : BitVec 64) :
    List Char × ℤ :=
  numberField { m.set F.flags with sign } F.width ch base (base = 16 && F.alt && v ≠ 0) v

def Converts (ch : Char) (base : ℕ) : Prop :=
  base = 8 ∨ base = 10 ∨ base = 16 ∧ (ch = 'x' ∨ ch = 'X')

theorem Converts.isBase {ch : Char} (h : Converts ch base) : IsBase base := by
  rcases h with h | h | h
  · exact .inl h
  · exact .inr (.inl h)
  · exact .inr (.inr h.1)

def prefixOf (F : Form) (base : ℕ) (upper : Bool) (n : ℕ) : List Char :=
  if F.alt && base = 16 && n ≠ 0 then ['0', if upper then 'X' else 'x'] else []

theorem prefixOf_eq {ch : Char} (h : Converts ch base) (hv : v = 0 ↔ n = 0) :
    hexPrefix (if (base = 16 && F.alt && v ≠ 0 : Bool) then some ch else none) =
      prefixOf F base (ch = 'X') n := by
  have hzero : decide (v ≠ 0) = decide (n ≠ 0) := by simp only [ne_eq, hv]
  unfold prefixOf
  rw [hzero]
  rcases h with rfl | rfl | ⟨rfl, rfl | rfl⟩ <;> cases F.alt <;> by_cases h0 : n = 0 <;>
    simp [h0, hexPrefix]

theorem isPrefix_prefixOf (F : Form) (base : ℕ) (upper : Bool) (n : ℕ) :
    IsPrefix base (prefixOf F base upper n) := by
  unfold prefixOf
  split_ifs with h hupper
  · simp only [Bool.and_eq_true, decide_eq_true_eq] at h
    exact .inr ⟨h.1.2, .inr rfl⟩
  · simp only [Bool.and_eq_true, decide_eq_true_eq] at h
    exact .inr ⟨h.1.2, .inl rfl⟩
  · exact .inl rfl

theorem Form.text_eq (F : Form) (base : ℕ) (upper : Bool) (sign : Option Char) (n : ℕ) :
    F.text base upper sign n = layout F.left (F.zero && F.prec.isNone)
      (F.width - (sign.toList ++ prefixOf F base upper n ++
        preciseDigits base upper (F.alt && base = 8) (F.prec.getD 1) n).length)
      sign.toList (prefixOf F base upper n)
      (preciseDigits base upper (F.alt && base = 8) (F.prec.getD 1) n) := rfl

/-- `_doprnt` leaves a zero out. -/
def Form.OctalZero (F : Form) (base n : ℕ) : Prop :=
  F.alt = true ∧ base = 8 ∧ F.prec = some 0 ∧ n = 0

variable {ch : Char} {sign sign' : Option Char} {n' : ℕ}

/-- `v` holds the magnitude `n` in the way the modifier asks for. -/
structure Magnitude (m : Length) (F : Form) (v : BitVec 64) (n : ℕ) : Prop where
  zero : v = 0 ↔ n = 0
  printed : Doprnt.printed (m.set F.flags) v = n

/-- The text is a layout of the prescribed sign and prefix around its own digits. -/
theorem numberIn_layout (F : Form) (m : Length) (hc : Converts ch base) (sign : Option Char)
    (h : Magnitude m F v n) :
    ∃ k, (numberIn F m ch base sign v).1 = layout F.left (F.zero && F.prec.isNone) k sign.toList
        (prefixOf F base (ch = 'X') n) (putDigits (m.set F.flags) (ch = 'X') base v) ∧
      ((sign.toList ++ prefixOf F base (ch = 'X') n ++
          putDigits (m.set F.flags) (ch = 'X') base v).length ≤ INT_MAX →
        k = F.width - (sign.toList ++ prefixOf F base (ch = 'X') n ++
          putDigits (m.set F.flags) (ch = 'X') base v).length) := by
  obtain ⟨hleft, hzero, -, hprec, -⟩ := set_flags m F
  obtain ⟨k, htext, hk⟩ := numberField_layout { m.set F.flags with sign } F.width ch base
    (base = 16 && F.alt && v ≠ 0) v (prefixOf_eq hc h.zero)
  refine ⟨k, ?_, hk⟩
  unfold numberIn
  rw [htext]
  change layout (m.set F.flags).ladjust ((m.set F.flags).zeropad && (m.set F.flags).prec.isNone)
    k sign.toList _ (putDigits (m.set F.flags) _ base v) = _
  rw [hleft, hzero, hprec]

theorem numberIn_eq (hc : Converts ch base) (h : Magnitude m F v n)
    (hzero : ¬ F.OctalZero base n) (hlen : (F.text base (ch = 'X') sign n).length ≤ INT_MAX) :
    (numberIn F m ch base sign v).1 = F.text base (ch = 'X') sign n := by
  obtain ⟨-, -, halt, hprec, -⟩ := set_flags m F
  have hdigits : putDigits (m.set F.flags) (ch = 'X') base v =
      preciseDigits base (ch = 'X') (F.alt && base = 8) (F.prec.getD 1) n := by
    rw [putDigits_eq hc.isBase _ h.printed h.zero, halt, hprec]
    unfold OctalZero
    rw [halt, hprec]
    exact hzero
  obtain ⟨k, htext, hk⟩ := numberIn_layout F m hc sign h
  rw [hdigits] at htext hk
  rw [Form.text_eq, layout_length] at hlen
  rw [htext, Form.text_eq, hk (by omega)]

/-- What a text of a number shows of it. -/
structure Shows (base : ℕ) (sign : Option Char) (n : ℕ) (text : List Char) : Prop where
  value : horner base 0 (text.filter (isDigitOf base)) = n
  minus : '-' ∈ text ↔ sign = some '-'

theorem shows_layout (hb : IsBase base) (left zero : Bool) (k : ℕ) {pre : List Char}
    (hsign : IsSign sign.toList) (hpre : IsPrefix base pre) (hvalue : horner base 0 ds = n)
    (hds : ∀ c ∈ ds, isDigitOf base c = true) :
    Shows base sign n (layout left zero k sign.toList pre ds) := by
  refine ⟨?_, ?_⟩
  · rw [horner_layout hb _ _ _ hsign hpre hds, hvalue]
  · rw [minus_mem_layout hb _ _ _ hpre hds]
    cases sign <;> simp [eq_comm]

theorem text_shows (F : Form) (hb : IsBase base) (upper : Bool) (hsign : IsSign sign.toList)
    (n : ℕ) :
    Shows base sign n (F.text base upper sign n) := by
  rw [Form.text_eq]
  have hdigits := zeros_digits hb upper (if F.alt && base = 8 then
    max (F.prec.getD 1 - (numeral base upper n).length) 1
    else F.prec.getD 1 - (numeral base upper n).length) n
  rw [← preciseDigits_eq hb] at hdigits
  exact shows_layout hb _ _ _ hsign (isPrefix_prefixOf F base upper n) hdigits.1 hdigits.2

theorem numberIn_shows (F : Form) (hc : Converts ch base) (hsign : IsSign sign.toList)
    (h : Magnitude m F v n) : Shows base sign n (numberIn F m ch base sign v).1 := by
  obtain ⟨k, htext, -⟩ := numberIn_layout F m hc sign h
  have hdigits := zeros_digits hc.isBase (ch = 'X')
    ((dprec (m.set F.flags).prec - (ownZeros (m.set F.flags) base n +
      (numeral base (ch = 'X') n).length : ℕ)).toNat + ownZeros (m.set F.flags) base n) n
  rw [← putDigits_zeros hc.isBase _ h.printed h.zero] at hdigits
  rw [htext]
  exact shows_layout hc.isBase _ _ _ hsign (isPrefix_prefixOf F base _ n) hdigits.1 hdigits.2

/-- A missing zero is seen. -/
theorem numberIn_ne (F : Form) (hc : Converts ch base) (hsign : IsSign sign.toList)
    (hsign' : IsSign sign'.toList) (h : Magnitude m F v n) (hzero : F.OctalZero base n) :
    (numberIn F m ch base sign v).1 ≠ F.text base (ch = 'X') sign' n := by
  obtain ⟨-, -, halt, hprec, -⟩ := set_flags m F
  obtain ⟨ha, rfl, hp, rfl⟩ := hzero
  have hputs : putDigits (m.set F.flags) (ch = 'X') 8 v = [] :=
    putDigits_octalZero hc.isBase _ h.printed h.zero ⟨halt.trans ha, rfl, hprec.trans hp, rfl⟩
  have hpre : prefixOf F 8 (ch = 'X') 0 = [] := by simp [prefixOf]
  have hdigits : preciseDigits 8 (ch = 'X') (F.alt && (8 : ℕ) = 8) (F.prec.getD 1) 0 = ['0'] := by
    rw [preciseDigits_eq hc.isBase, numeral_zero, ha, hp]
    rfl
  obtain ⟨k, htext, -⟩ := numberIn_layout F m hc sign h
  have hnil : ∀ c ∈ ([] : List Char), isDigitOf 8 c = true := fun c hmem => nomatch hmem
  have hone : ∀ c ∈ ['0'], isDigitOf 8 c = true := by
    intro c hmem
    rw [List.mem_singleton.mp hmem]
    decide
  obtain ⟨j, hj, hnone⟩ := filter_layout hc.isBase F.left (F.zero && F.prec.isNone) k hsign
    (.inl rfl : IsPrefix 8 []) hnil
  rw [hnone (by rw [hp]; simp) rfl] at hj
  obtain ⟨j', hj', -⟩ := filter_layout hc.isBase F.left (F.zero && F.prec.isNone)
    (F.width - (sign'.toList ++ [] ++ ['0']).length) hsign' (.inl rfl : IsPrefix 8 []) hone
  intro heq
  rw [htext, Form.text_eq, hputs, hpre, hdigits] at heq
  rw [heq, hj'] at hj
  exact absurd hj (by simp)

theorem numberIn_eq_iff (F : Form) (hc : Converts ch base) (hsign : IsSign sign.toList)
    (hsign' : IsSign sign'.toList) (h : Magnitude m F v n)
    (hsame : (sign = some '-' ↔ sign' = some '-') → sign = sign')
    (hlen : (F.text base (ch = 'X') sign' n').length ≤ INT_MAX) :
    (numberIn F m ch base sign v).1 = F.text base (ch = 'X') sign' n' ↔
      n = n' ∧ (sign = some '-' ↔ sign' = some '-') ∧ ¬ F.OctalZero base n' := by
  constructor
  · intro heq
    have hshows := numberIn_shows F hc hsign h
    rw [heq] at hshows
    have hshows' := text_shows F hc.isBase (ch = 'X') hsign' n'
    obtain rfl : n = n' := hshows.value.symm.trans hshows'.value
    exact ⟨rfl, hshows.minus.symm.trans hshows'.minus,
      fun hzero => numberIn_ne F hc hsign hsign' h hzero heq⟩
  · rintro ⟨rfl, hminus, hzero⟩
    obtain rfl := hsame hminus
    exact numberIn_eq hc h hzero hlen

theorem magnitude_signed (F : Form) (m : Length) (arg : BitVec 64) :
    Magnitude m F
      (if (Doprnt.argSigned (m.set F.flags) arg).slt 0 then -Doprnt.argSigned (m.set F.flags) arg
        else Doprnt.argSigned (m.set F.flags) arg) (arg.setWidth m.readBits).toInt.natAbs ∧
    (Doprnt.argSigned (m.set F.flags) arg).slt 0 =
    decide ((arg.setWidth m.readBits).toInt < 0) := by
  obtain ⟨hle, hsmall⟩ := readBits_le (F := F) m
  have hint : ((arg.setWidth m.readBits).signExtend 64).toInt = (arg.setWidth m.readBits).toInt :=
    BitVec.toInt_signExtend_of_le hle
  rw [argSigned_eq]
  refine ⟨⟨?_, ?_⟩, ?_⟩
  · rw [eq_zero_of_toNat (toNat_magnitude _), hint]
  · rw [printed_magnitude, hint]
    intro hl
    have hbits := hsmall hl
    have hpow : (2 : ℤ) ^ (m.readBits - 1) ≤ 2 ^ 31 :=
      pow_le_pow_right₀ (by decide) (by omega)
    have hupper := BitVec.toInt_lt (x := arg.setWidth m.readBits)
    have hlower := BitVec.le_toInt (arg.setWidth m.readBits)
    rw [hint]
    omega
  · rw [← hint]
    rfl

theorem magnitude_unsigned (F : Form) (m : Length) (arg : BitVec 64) :
    Magnitude m F (Doprnt.argUnsigned (m.set F.flags) arg) (arg.setWidth m.readBits).toNat := by
  obtain ⟨hle, hsmall⟩ := readBits_le (F := F) m
  have hlt := (arg.setWidth m.readBits).isLt
  have hnat : ((arg.setWidth m.readBits).setWidth 64).toNat = (arg.setWidth m.readBits).toNat := by
    rw [BitVec.toNat_setWidth]
    exact Nat.mod_eq_of_lt (Nat.lt_of_lt_of_le hlt (Nat.pow_le_pow_right (by decide) hle))
  rw [argUnsigned_eq]
  refine ⟨eq_zero_of_toNat hnat, ?_⟩
  rw [printed_unsigned, hnat]
  intro hl
  rw [hnat]
  exact Nat.lt_of_lt_of_le hlt (Nat.pow_le_pow_right (by decide) (hsmall hl))

theorem signedField_eq (F : Form) (m : Length) (ch : Char) (arg : BitVec 64) :
    signedField (m.set F.flags) F.width ch arg =
      numberIn F m ch 10
        (if (Doprnt.argSigned (m.set F.flags) arg).slt 0 then some '-' else F.sign)
        (if (Doprnt.argSigned (m.set F.flags) arg).slt 0 then
          -Doprnt.argSigned (m.set F.flags) arg else Doprnt.argSigned (m.set F.flags) arg) := by
  obtain ⟨-, -, -, -, hsign⟩ := set_flags m F
  unfold signedField numberIn
  rw [← hsign]
  dsimp only
  split_ifs <;> rfl

theorem unsignedField_eq (F : Form) (m : Length) (ch : Char) (base : ℕ) (arg : BitVec 64) :
    unsignedField (m.set F.flags) F.width ch base arg =
      numberIn F m ch base none (Doprnt.argUnsigned (m.set F.flags) arg) := by
  obtain ⟨-, -, halt, -, -⟩ := set_flags m F
  unfold unsignedField numberIn
  rw [← halt]

theorem isSign_form (s : Spec ρ) (w p : ℤ) : IsSign (s.form w p).sign.toList := by
  unfold Spec.form IsSign
  dsimp only
  split_ifs <;> simp

theorem signed_iff (F : Form) (hF : IsSign F.sign.toList) (hminus : F.sign ≠ some '-') (m : Length)
    (hch : ch = 'd' ∨ ch = 'i') (arg : BitVec 64) (c : ℤ)
    (hlen : (F.signedText c).length ≤ INT_MAX) :
    (signedField (m.set F.flags) F.width ch arg).1 = F.signedText c ↔
      (arg.setWidth m.readBits).toInt = c := by
  obtain ⟨hmag, hslt⟩ := magnitude_signed F m arg
  have hsign : ∀ b : Bool, IsSign (if b then some '-' else F.sign).toList := by
    intro b
    cases b
    · exact hF
    · exact .inr (.inr (.inr rfl))
  have hiff : ∀ b : Bool, (if b then some '-' else F.sign) = some '-' ↔ b = true := by
    intro b
    cases b <;> simp [hminus]
  have hX : ch ≠ 'X' := by rcases hch with rfl | rfl <;> decide
  have hupper : decide (ch = 'X') = false := by simpa using hX
  have hc : Converts ch 10 := .inr (.inl rfl)
  unfold Form.signedText at hlen ⊢
  rw [signedField_eq, ← hupper]
  rw [← hupper] at hlen
  rw [hslt] at hmag ⊢
  have hdec : (if c < 0 then some '-' else F.sign) =
      if decide (c < 0) = true then some '-' else F.sign := by simp
  rw [hdec] at hlen ⊢
  rw [numberIn_eq_iff F hc (hsign _) (hsign _) hmag _ hlen, hiff, hiff, decide_eq_true_eq,
    decide_eq_true_eq]
  · unfold Form.OctalZero
    constructor
    · rintro ⟨habs, hneg, -⟩
      omega
    · rintro rfl
      exact ⟨rfl, Iff.rfl, fun h => absurd h.2.1 (by decide)⟩
  · rw [hiff, hiff]
    intro h
    rw [Bool.eq_iff_iff.mpr h]

theorem unsigned_iff (F : Form) (m : Length) (hc : Converts ch base) (arg : BitVec 64) (c : ℕ)
    (hlen : (F.unsignedText base (ch = 'X') c).length ≤ INT_MAX) :
    (unsignedField (m.set F.flags) F.width ch base arg).1 = F.unsignedText base (ch = 'X') c ↔
      (arg.setWidth m.readBits).toNat = c ∧ ¬ F.OctalZero base c := by
  unfold Form.unsignedText at hlen ⊢
  rw [unsignedField_eq, numberIn_eq_iff F hc (.inl rfl) (.inl rfl) (magnitude_unsigned F m arg)
    (fun _ => rfl) hlen]
  simp

theorem Form.width_le (F : Form) (base : ℕ) (upper : Bool) (sign : Option Char) (n : ℕ) :
    F.width ≤ (F.text base upper sign n).length := by
  rw [Form.text_eq, layout_length]
  omega

theorem Form.prec_le (F : Form) (hb : IsBase base) (upper : Bool) (sign : Option Char) (n : ℕ)
    {k : ℕ}
    (hk : F.prec = some k) : k ≤ (F.text base upper sign n).length := by
  have hdigits : k ≤ (preciseDigits base upper (F.alt && base = 8) (F.prec.getD 1) n).length := by
    rw [preciseDigits_eq hb, hk, List.length_append, List.length_replicate, Option.getD_some]
    split_ifs <;> omega
  rw [Form.text_eq, layout_length, List.length_append]
  omega

theorem setAt_eq (s : Spec Unit) (hs : s.conv.IsInteger) (a : Args) (argp : ℕ)
    (hlen : (s.prescribed a argp).length ≤ INT_MAX) :
    s.setAt a argp =
      (s.length.set (s.formAt a argp).flags, ((s.formAt a argp).width : ℤ)) := by
  obtain ⟨base, upper, sign, n, hb, htext⟩ : ∃ base upper sign n, IsBase base ∧
      s.prescribed a argp = (s.formAt a argp).text base upper sign n := by
    obtain ⟨hc, hstr, hp⟩ := hs
    unfold Spec.prescribed
    cases hv : s.conv
    case c => exact absurd hv hc
    case s => exact absurd hv hstr
    case p => exact absurd hv hp
    case d | i => exact ⟨10, _, _, _, .inr (.inl rfl), rfl⟩
    case o => exact ⟨8, _, _, _, .inl rfl, rfl⟩
    case u => exact ⟨10, _, _, _, .inr (.inl rfl), rfl⟩
    case x | X => exact ⟨16, _, _, _, .inr (.inr rfl), rfl⟩
  rw [htext] at hlen
  have hwidth := (s.formAt a argp).width_le base upper sign n
  exact s.set_eq _ _ (Nat.le_trans hwidth hlen) fun k hk =>
    Nat.le_trans ((s.formAt a argp).prec_le hb upper sign n hk) hlen

/-- The text of an integer conversion and its size, from the flags, the width and the argument. -/
def Conv.number (v : Conv) (f : Flags) (width : ℤ) (arg : BitVec 64) : List Char × ℤ :=
  match v with
  | .d => signedField f width 'd' arg
  | .i => signedField f width 'i' arg
  | .o => unsignedField f width 'o' 8 arg
  | .u => unsignedField f width 'u' 10 arg
  | .x => unsignedField f width 'x' 16 arg
  | .X => unsignedField f width 'X' 16 arg
  | .c | .s | .p => ([], 0)

theorem conversion_integer {a : Args} {v : Conv} (hv : v.IsInteger) (d : Directive)
    (hd : d.lists.numeric = false) :
    conversion a d v.ch = some (v.number d.flags d.width (a.wide d.lists.argp),
      { d.lists with argp := d.lists.argp + argWords d.flags }) := by
  have hplace : d.lists.place = some d.lists.argp := by
    unfold Lists.place
    rw [hd]
    rfl
  obtain ⟨hc, hstr, hp⟩ := hv
  cases v
  case c => exact absurd rfl hc
  case s => exact absurd rfl hstr
  case p => exact absurd rfl hp
  all_goals
    unfold conversion
    rw [if_neg (by decide), if_neg (by decide), if_pos (by decide), hplace]
    rfl

/-- With `hh` the `int` that is passed has the value of the `char` that it is converted to. -/
def Spec.CharFits (s : Spec Unit) (a : Args) (argp : ℕ) : Prop :=
  s.length = .hh →
    match s.conv with
    | .d | .i => (a.word (s.place argp)).toInt = ((a.word (s.place argp)).setWidth 8).toInt
    | _ => (a.word (s.place argp)).toNat = ((a.word (s.place argp)).setWidth 8).toNat

/-- A zero in the alternate octal form with the precision zero. -/
def Spec.ZeroLost (s : Spec Unit) (a : Args) (argp : ℕ) : Prop :=
  s.conv = .o ∧ .alt ∈ s.flags ∧ (s.formAt a argp).prec = some 0 ∧ s.argument a argp = 0

theorem wide_narrow (a : Args) (p : ℕ) :
    (a.wide p).setWidth 32 = a.word p ∧ (a.wide p).setWidth 8 = (a.word p).setWidth 8 := by
  have hword : (a.wide p).setWidth 32 = a.word p := BitVec.setWidth_append_eq_right
  refine ⟨hword, ?_⟩
  rw [← hword, BitVec.setWidth_setWidth_of_le _ (by decide)]

/-- The modifiers other than `hh` read what they name. -/
theorem readBits_eq (h : m ≠ .hh) : m.readBits = m.bits := by
  cases m <;> first | rfl | exact absurd rfl h

theorem charFits_signed (s : Spec Unit) (a : Args) (argp : ℕ) (hs : s.conv = .d ∨ s.conv = .i) :
    s.CharFits a argp ↔ ((a.wide (s.place argp)).setWidth s.length.readBits).toInt =
      (s.argument a argp).toInt := by
  obtain ⟨hint, hchar⟩ := wide_narrow a (s.place argp)
  by_cases hh : s.length = .hh
  · have hmatch : s.CharFits a argp ↔ (a.word (s.place argp)).toInt =
        ((a.word (s.place argp)).setWidth 8).toInt := by
      unfold Spec.CharFits
      rcases hs with hs | hs <;> simp [hh, hs]
    rw [hmatch]
    unfold Spec.argument
    rw [hh]
    change _ ↔ ((a.wide (s.place argp)).setWidth 32).toInt =
      ((a.wide (s.place argp)).setWidth 8).toInt
    rw [hint, hchar]
  · unfold Spec.CharFits Spec.argument
    rw [readBits_eq hh]
    simp [hh]

theorem charFits_unsigned (s : Spec Unit) (a : Args) (argp : ℕ) (hd : s.conv ≠ .d)
    (hi : s.conv ≠ .i) :
    s.CharFits a argp ↔ ((a.wide (s.place argp)).setWidth s.length.readBits).toNat =
      (s.argument a argp).toNat := by
  obtain ⟨hint, hchar⟩ := wide_narrow a (s.place argp)
  by_cases hh : s.length = .hh
  · have hmatch : s.CharFits a argp ↔ (a.word (s.place argp)).toNat =
        ((a.word (s.place argp)).setWidth 8).toNat := by
      unfold Spec.CharFits
      cases hs : s.conv <;> simp_all
    rw [hmatch]
    unfold Spec.argument
    rw [hh]
    change _ ↔ ((a.wide (s.place argp)).setWidth 32).toNat =
      ((a.wide (s.place argp)).setWidth 8).toNat
    rw [hint, hchar]
  · unfold Spec.CharFits Spec.argument
    rw [readBits_eq hh]
    simp [hh]

theorem number_prescribed_iff (s : Spec Unit) (hs : s.conv.IsInteger) (a : Args) (argp : ℕ)
    (hlen : (s.prescribed a argp).length ≤ INT_MAX) :
    (s.conv.number (s.setAt a argp).1 (s.setAt a argp).2 (a.wide (s.place argp))).1 =
        s.prescribed a argp ↔
      s.CharFits a argp ∧ ¬ s.ZeroLost a argp := by
  have hset := setAt_eq s hs a argp hlen
  have hsign : IsSign (s.formAt a argp).sign.toList := isSign_form s _ _
  have hminus : (s.formAt a argp).sign ≠ some '-' := by
    unfold Spec.formAt Spec.form
    dsimp only
    split_ifs <;> simp
  have hoctal : ∀ b, (s.formAt a argp).OctalZero b (s.argument a argp).toNat ↔
      .alt ∈ s.flags ∧ b = 8 ∧ (s.formAt a argp).prec = some 0 ∧ s.argument a argp = 0 := by
    intro b
    rw [Form.OctalZero, ← BitVec.toNat_inj]
    simp [Spec.formAt, Spec.form]
  obtain ⟨hc, hstr, hp⟩ := hs
  rw [hset]
  unfold Spec.prescribed at hlen ⊢
  unfold Spec.ZeroLost
  cases hv : s.conv
  case c => exact absurd hv hc
  case s => exact absurd hv hstr
  case p => exact absurd hv hp
  case d =>
    rw [hv] at hlen
    rw [charFits_signed s a argp (.inl hv)]
    have hiff := signed_iff _ hsign hminus s.length (.inl rfl) (a.wide (s.place argp)) _ hlen
    simpa [Conv.number] using hiff
  case i =>
    rw [hv] at hlen
    rw [charFits_signed s a argp (.inr hv)]
    have hiff := signed_iff _ hsign hminus s.length (.inr rfl) (a.wide (s.place argp)) _ hlen
    simpa [Conv.number] using hiff
  all_goals
    rw [hv] at hlen
    rw [charFits_unsigned s a argp (by rw [hv]; decide) (by rw [hv]; decide)]
    have hiff (ch : Char) (base : ℕ) (hconv : Converts ch base) :=
      unsigned_iff (s.formAt a argp) s.length hconv (a.wide (s.place argp)) (s.argument a argp).toNat
    simp only [hoctal] at hiff
  case o => simpa [Conv.number] using hiff 'o' 8 (.inl rfl) hlen
  case u => simpa [Conv.number] using hiff 'u' 10 (.inr (.inl rfl)) hlen
  case x => simpa [Conv.number] using hiff 'x' 16 (.inr (.inr ⟨rfl, .inl rfl⟩)) hlen
  case X => simpa [Conv.number] using hiff 'X' 16 (.inr (.inr ⟨rfl, .inr rfl⟩)) hlen

/-- Wherever the loop meets a directive for an integer, it puts a text there, and this is the
prescribed one exactly if no `char` is out of range and no zero is lost. -/
theorem integer_prescribed_iff (s : Spec Unit) (hs : s.conv.IsInteger) (a : Args) (l : Lists)
    (hl : l.numeric = false) (hlen : (s.prescribed a l.argp).length ≤ INT_MAX) :
    ∃ text added l', (∀ trav n rest cnt,
        loop a trav (n + 1) (s.text noRef ++ rest) l cnt =
          (loop a trav n rest l' (int (cnt + added))).map fun r => (text ++ r.1, r.2)) ∧
      (text = s.prescribed a l.argp ↔ s.CharFits a l.argp ∧ ¬ s.ZeroLost a l.argp) := by
  have hprint := conversion_integer (a := a) hs (s.ready a l) hl
  exact ⟨_, _, _, fun trav n rest cnt => loop_sequential s hprint,
    number_prescribed_iff s hs a l.argp hlen⟩

/-- A directive with flags and a modifier for one argument. -/
def plainSpec (flags : List Flag) (prec : Prec Unit) (length : Length) (conv : Conv) : Spec Unit :=
  ⟨(), flags, .none, prec, length, conv⟩

theorem integer_prescribed_iff_minus_one :
    ∃ text added l', (∀ trav n rest cnt,
        loop ⟨fun _ => -1, fun _ => 0⟩ trav (n + 1)
            ((plainSpec [.plus] .none .hh .d).text noRef ++ rest) {} cnt =
          (loop ⟨fun _ => -1, fun _ => 0⟩ trav n rest l' (int (cnt + added))).map
            fun r => (text ++ r.1, r.2)) ∧
      (text = (plainSpec [.plus] .none .hh .d).prescribed ⟨fun _ => -1, fun _ => 0⟩ 0 ↔
        (plainSpec [.plus] .none .hh .d).CharFits ⟨fun _ => -1, fun _ => 0⟩ 0 ∧
          ¬ (plainSpec [.plus] .none .hh .d).ZeroLost ⟨fun _ => -1, fun _ => 0⟩ 0) :=
  integer_prescribed_iff (plainSpec [.plus] .none .hh .d) (by decide) ⟨fun _ => -1, fun _ => 0⟩ {}
    rfl (by decide +kernel)

/-- `%hhd` does not narrow 300, and the zero of `%#.0o` is lost. -/
theorem doprnt_hhd :
    doprnt ⟨fun _ => 300, fun _ => 0⟩ 0 ((plainSpec [] .none .hh .d).text noRef) =
        some (['3', '0', '0'], 3) ∧
      (plainSpec [] .none .hh .d).prescribed ⟨fun _ => 300, fun _ => 0⟩ 0 = ['4', '4'] ∧
      doprnt ⟨fun _ => 0, fun _ => 0⟩ 0
        ((plainSpec [.alt] (.literal ⟨['0'], List.all_eq_true.mp rfl⟩) .none .o).text noRef) =
        some ([], 0) ∧
      (plainSpec [.alt] (.literal ⟨['0'], List.all_eq_true.mp rfl⟩) .none .o).prescribed
        ⟨fun _ => 0, fun _ => 0⟩ 0 = ['0'] := by
  refine ⟨by decide +kernel, by decide +kernel, by decide +kernel, by decide +kernel⟩

end DjgppLibc.DoprntLoop
