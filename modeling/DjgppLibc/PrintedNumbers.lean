import DjgppLibc.DoprntIntegers
import DjgppLibc.StrtolSubject

/-!
# Numbers that are printed and read back

A field of an integer conversion has spaces, a sign, a prefix and digits in the order in which the
functions of the `strtol` family pass over them, so that they find its number again.
-/
namespace DjgppLibc.Strtol

variable {base : ℕ} {rest : List UInt8} {c : UInt8}

theorem digitRun_cons {d : ℕ} (hc : digitValue c = some d) (hd : d < base) :
    digitRun base (c :: rest) = d :: digitRun base rest := by
  rw [← digitOf_toNat] at hc
  obtain ⟨k, hk, rfl⟩ := Option.map_eq_some_iff.mp hc
  rw [digitRun, hk]
  exact if_pos hd

theorem readSign_digit {b : ℕ} (hc : isDigitIn b c = true) :
    readSign (c :: rest) = (false, c :: rest) := by
  obtain ⟨hnot, hminus, hplus⟩ := digit_not_space hc
  have hderef : deref (c :: rest) = c := rfl
  unfold readSign
  rw [List.dropWhile_cons_of_neg (by rw [hnot]; exact Bool.false_ne_true)]
  dsimp only
  rw [hderef, if_neg hminus, if_neg hplus]

theorem readStart_unprefixed (hbase : base ≠ 0) (hle : base ≤ 16) {nptr : List UInt8} {neg : Bool}
    (hread : readSign nptr = (neg, rest))
    (hrest : ∀ c ∈ rest, isDigitIn base c = true ∨ isspace c = true) :
    readStart nptr base = ⟨neg, base, rest⟩ := by
  have hnot : ¬ Prefixed base rest := by
    intro h
    obtain ⟨x, t, hx, rfl⟩ := h.eq
    obtain hdigit | hspace := hrest x (List.mem_cons_of_mem _ List.mem_cons_self)
    · exact absurd (hdigit.symm.trans (x_not_hex hx hle)) (by decide)
    · obtain rfl | rfl := hx <;> exact absurd hspace (by decide)
  unfold readStart
  rw [hread]
  exact (if_neg hnot).trans (if_neg hbase)

theorem magnitude_eq (nptr : List UInt8) (base : ℕ) :
    magnitude nptr base = (number nptr base).natAbs := by
  rw [number]
  split_ifs
  · rw [Int.natAbs_neg, Int.natAbs_natCast]
  · rw [Int.natAbs_natCast]

/-- What the four functions make of a text for the number `x`. -/
structure Reads (t : List UInt8) (base : ℕ) (x : ℤ) (errno : ℕ) : Prop where
  strtol : SignedResult longMin longMax x errno (strtol t base errno)
  strtoll : SignedResult llongMin llongMax x errno (strtoll t base errno)
  strtoul : UnsignedResult ulongMax x.natAbs x errno (strtoul t base errno)
  strtoull : UnsignedResult ullongMax x.natAbs x errno (strtoull t base errno)

theorem reads_number (hbase : IsBase base) (t : List UInt8) (errno : ℕ) :
    Reads t base (number t base) errno := by
  refine ⟨strtol_result hbase t errno, strtoll_result hbase t errno, ?_, ?_⟩
  all_goals rw [← magnitude_eq]
  · exact unsignedResult_of_cutoff 32 ulongMax (fun _ => cutoff ulongMax) hbase t errno
      (by decide) fun _ _ _ => rfl
  · exact unsignedResult_of_cutoff 64 ullongMax (fun _ => cutoff ullongMax) hbase t errno
      (by decide) fun _ _ _ => rfl

end DjgppLibc.Strtol

namespace DjgppLibc.DoprntLoop
open Doprnt (IsBase horner)
open Doscan (isDigitOf digitOf)

variable {base n : ℕ} {sign pre ds : List Char} {c : Char}

theorem digitValue_toUInt8 (hb : IsBase base) (h : isDigitOf base c = true) :
    Strtol.digitValue c.toUInt8 = some (digitOf c) ∧ digitOf c < base := by
  have hall : ∀ k < 128, ∀ b ∈ [8, 10, 16], isDigitOf b (Char.ofNat k) = true →
      Strtol.digitValue (Char.ofNat k).toUInt8 = some (digitOf (Char.ofNat k)) ∧
        digitOf (Char.ofNat k) < b := by decide +kernel
  have hascii : c.toNat < 128 := by
    simp only [isDigitOf, Doscan.isdigit, Bool.and_eq_true, Bool.or_eq_true,
      decide_eq_true_eq] at h
    have hchar : (48 ≤ c.toNat ∧ c.toNat ≤ 57) ∧ _ ∨
        _ ∧ (97 ≤ c.toNat ∧ c.toNat ≤ 102 ∨ 65 ≤ c.toNat ∧ c.toNat ≤ 70) := h
    omega
  rw [← Char.ofNat_toNat c] at h ⊢
  exact hall c.toNat hascii base (by simpa [IsBase] using hb) h

/-- Digits with spaces behind them. -/
theorem digitRun_digits (hb : IsBase base) (l : ℕ) (hds : ∀ c ∈ ds, isDigitOf base c = true) :
    Strtol.digitRun base ((ds ++ List.replicate l ' ').map Char.toUInt8) = ds.map digitOf := by
  induction ds with
  | nil => cases l <;> rfl
  | cons c ds ih =>
      obtain ⟨hvalue, hlt⟩ := digitValue_toUInt8 hb (hds c List.mem_cons_self)
      rw [List.cons_append, List.map_cons, Strtol.digitRun_cons hvalue hlt,
        ih fun c hc => hds c (List.mem_cons_of_mem _ hc)]
      rfl

theorem valueFrom_digits (base n : ℕ) (ds : List Char) :
    LimitedNumbers.valueFrom base n (ds.map digitOf) = horner base n ds := by
  induction ds generalizing n with
  | nil => rfl
  | cons c ds ih => exact ih _

theorem layout_shape (left zero : Bool) (k : ℕ) (sign pre ds : List Char) :
    ∃ i j l, layout left zero k sign pre ds = List.replicate i ' ' ++ (sign ++ (pre ++
      ((List.replicate j '0' ++ ds) ++ List.replicate l ' '))) := by
  unfold layout
  cases left with
  | true => exact ⟨0, 0, k, by simp⟩
  | false =>
      cases zero with
      | true => exact ⟨0, k, 0, by simp⟩
      | false => exact ⟨k, 0, 0, by simp⟩

theorem readSign_blanks (i : ℕ) (t : List UInt8) :
    Strtol.readSign ((List.replicate i ' ').map Char.toUInt8 ++ t) = Strtol.readSign t := by
  have hspaces : ∀ c ∈ (List.replicate i ' ').map Char.toUInt8, Strtol.isspace c = true := by
    intro c hc
    rw [List.map_replicate] at hc
    exact (List.mem_replicate.mp hc).2 ▸ rfl
  unfold Strtol.readSign
  rw [List.dropWhile_append_of_pos hspaces]

/-- What stands in front of the digits is passed over, also a space in the place of the sign. -/
theorem readStart_text (hb : IsBase base) (hsign : IsSign sign) (hpre : IsPrefix base pre)
    (hds : ∀ c ∈ ds, isDigitOf base c = true) (i l : ℕ) :
    ∃ r, Strtol.readStart ((List.replicate i ' ' ++ (sign ++ (pre ++ (ds ++
        List.replicate l ' ')))).map Char.toUInt8) base = ⟨decide (sign = ['-']), base, r⟩ ∧
      Strtol.digitRun base r = ds.map digitOf := by
  have hbase : base ≠ 0 ∧ base ≤ 16 := by obtain rfl | rfl | rfl := hb <;> decide
  have hrun := digitRun_digits hb l hds
  have hin : ∀ c ∈ ds, Strtol.isDigitIn base c.toUInt8 = true := fun c hc => by
    obtain ⟨hvalue, hlt⟩ := digitValue_toUInt8 hb (hds c hc)
    rw [Strtol.isDigitIn, hvalue]
    exact decide_eq_true hlt
  have hsigned {t u : List Char} (h : Strtol.readSign (t.map Char.toUInt8) =
      (false, u.map Char.toUInt8)) : ∃ r, Strtol.readSign ((List.replicate i ' ' ++
        (sign ++ t)).map Char.toUInt8) = (decide (sign = ['-']), r.map Char.toUInt8) ∧
          (r = t ∨ r = u) := by
    rw [List.map_append, readSign_blanks]
    obtain rfl | rfl | rfl | rfl := hsign
    · exact ⟨u, h, .inr rfl⟩
    · exact ⟨u, h, .inr rfl⟩
    · exact ⟨t, rfl, .inl rfl⟩
    · exact ⟨t, rfl, .inl rfl⟩
  obtain rfl | ⟨rfl, hpre⟩ := hpre
  · obtain ⟨u, hu, hudigits⟩ : ∃ u, Strtol.readSign ((ds ++ List.replicate l ' ').map
        Char.toUInt8) = (false, u.map Char.toUInt8) ∧
          (u = ds ++ List.replicate l ' ' ∨ u = [] ∧ ds = []) := by
      cases ds with
      | nil =>
          have hblanks := readSign_blanks l []
          rw [List.append_nil] at hblanks
          exact ⟨[], hblanks, .inr ⟨rfl, rfl⟩⟩
      | cons d ds =>
          exact ⟨d :: ds ++ List.replicate l ' ', Strtol.readSign_digit (hin d List.mem_cons_self),
            .inl rfl⟩
    obtain ⟨r, hread, hr⟩ := hsigned hu
    have hrdigits : r = ds ++ List.replicate l ' ' ∨ r = [] ∧ ds = [] :=
      hr.elim .inl fun h => h ▸ hudigits
    refine ⟨_, Strtol.readStart_unprefixed hbase.1 hbase.2 hread fun c hc => ?_, ?_⟩
    · obtain ⟨d, hd, rfl⟩ := List.mem_map.mp hc
      obtain rfl | ⟨rfl, -⟩ := hrdigits
      · obtain hd | hd := List.mem_append.mp hd
        · exact .inl (hin d hd)
        · exact .inr ((List.mem_replicate.mp hd).2 ▸ rfl)
      · cases hd
    · obtain rfl | ⟨rfl, rfl⟩ := hrdigits
      · exact hrun
      · rfl
  · have hu : Strtol.readSign ((pre ++ (ds ++ List.replicate l ' ')).map Char.toUInt8) =
        (false, (pre ++ (ds ++ List.replicate l ' ')).map Char.toUInt8) := by
      obtain rfl | rfl := hpre <;> rfl
    obtain ⟨r, hread, hr⟩ := hsigned hu
    rw [or_self] at hr
    subst hr
    refine ⟨_, ?_, hrun⟩
    unfold Strtol.readStart
    rw [hread]
    obtain rfl | rfl := hpre <;> rfl

theorem number_layout (hb : IsBase base) (left zero : Bool) (k : ℕ) (hsign : IsSign sign)
    (hpre : IsPrefix base pre) (hds : ∀ c ∈ ds, isDigitOf base c = true) :
    Strtol.number ((layout left zero k sign pre ds).map Char.toUInt8) base =
      if sign = ['-'] then -(horner base 0 ds : ℤ) else horner base 0 ds := by
  obtain ⟨i, j, l, htext⟩ := layout_shape left zero k sign pre ds
  have hdigits : ∀ c ∈ List.replicate j '0' ++ ds, isDigitOf base c = true := fun c hc =>
    (List.mem_append.mp hc).elim (fun h => (List.mem_replicate.mp h).2 ▸ isDigitOf_zero hb) (hds c)
  obtain ⟨r, hstart, hrun⟩ := readStart_text hb hsign hpre hdigits i l
  rw [htext, Strtol.number, Strtol.magnitude, Strtol.digits, hstart, hrun, LimitedNumbers.value,
    valueFrom_digits, Doprnt.horner_append, Doprnt.horner_zeros]
  exact if_congr decide_eq_true_iff rfl rfl

variable {F : Form} {m : Length} {ch : Char} {sign : Option Char} {v : BitVec 64}

theorem numberIn_number (hc : Converts ch base) (hsign : IsSign sign.toList)
    (h : Magnitude m F v n) :
    Strtol.number ((numberIn F m ch base sign v).1.map Char.toUInt8) base =
      if sign = some '-' then -(n : ℤ) else n := by
  obtain ⟨k, htext, -⟩ := numberIn_layout F m hc sign h
  have hdigits := zeros_digits hc.isBase (ch = 'X')
    ((dprec (m.set F.flags).prec - (ownZeros (m.set F.flags) base n +
      (numeral base (ch = 'X') n).length : ℕ)).toNat + ownZeros (m.set F.flags) base n) n
  rw [← putDigits_zeros hc.isBase _ h.printed h.zero] at hdigits
  rw [htext, number_layout hc.isBase _ _ _ hsign (isPrefix_prefixOf F base _ n) hdigits.2,
    hdigits.1]
  refine if_congr ?_ rfl rfl
  cases sign <;> simp

theorem signedField_number (hF : IsSign F.sign.toList) (hminus : F.sign ≠ some '-')
    (arg : BitVec 64) :
    Strtol.number ((signedField (m.set F.flags) F.width ch arg).1.map Char.toUInt8) 10 =
      (arg.setWidth m.readBits).toInt := by
  obtain ⟨hmag, hslt⟩ := magnitude_signed F m arg
  rw [hslt] at hmag
  rw [signedField_eq, hslt]
  by_cases hneg : (arg.setWidth m.readBits).toInt < 0
  · rw [decide_eq_true hneg, if_pos rfl] at hmag ⊢
    rw [if_pos rfl, numberIn_number (.inr (.inl rfl)) (.inr (.inr (.inr rfl))) hmag, if_pos rfl]
    omega
  · rw [decide_eq_false hneg, if_neg Bool.false_ne_true] at hmag ⊢
    rw [if_neg Bool.false_ne_true, numberIn_number (.inr (.inl rfl)) hF hmag, if_neg hminus]
    omega

theorem unsignedField_number (hc : Converts ch base) (arg : BitVec 64) :
    Strtol.number ((unsignedField (m.set F.flags) F.width ch base arg).1.map Char.toUInt8) base =
      (arg.setWidth m.readBits).toNat := by
  rw [unsignedField_eq, numberIn_number hc (.inl rfl) (magnitude_unsigned F m arg)]
  rfl

def Conv.radix : Conv → ℕ
  | .o => 8
  | .x | .X => 16
  | _ => 10

def Spec.readArgument (s : Spec Unit) (arg : BitVec 64) : ℤ :=
  if s.conv = .d ∨ s.conv = .i then (arg.setWidth s.length.readBits).toInt
  else (arg.setWidth s.length.readBits).toNat

theorem number_argument (s : Spec Unit) (hs : s.conv.IsInteger) (a : Args) (argp : ℕ)
    (hlen : (s.prescribed a argp).length ≤ INT_MAX) (arg : BitVec 64) :
    Strtol.number ((s.conv.number (s.setAt a argp).1 (s.setAt a argp).2 arg).1.map Char.toUInt8)
      s.conv.radix = s.readArgument arg := by
  have hsign : IsSign (s.formAt a argp).sign.toList := isSign_form s _ _
  have hminus : (s.formAt a argp).sign ≠ some '-' := by
    unfold Spec.formAt Spec.form
    dsimp only
    split_ifs <;> simp
  obtain ⟨hc, hstr, hp⟩ := hs
  rw [setAt_eq s ⟨hc, hstr, hp⟩ a argp hlen, Spec.readArgument]
  cases hv : s.conv
  case c => exact absurd hv hc
  case s => exact absurd hv hstr
  case p => exact absurd hv hp
  case d => exact signedField_number hsign hminus arg
  case i => exact signedField_number hsign hminus arg
  case o => exact unsignedField_number (.inl rfl) arg
  case u => exact unsignedField_number (.inr (.inl rfl)) arg
  case x => exact unsignedField_number (.inr (.inr ⟨rfl, .inl rfl⟩)) arg
  case X => exact unsignedField_number (.inr (.inr ⟨rfl, .inr rfl⟩)) arg

/-- The text that the loop puts there for an integer stands for the argument, as wide as the
conversion reads it, also for the functions that read numbers. -/
theorem integer_read_back (s : Spec Unit) (hs : s.conv.IsInteger) (a : Args) (l : Lists)
    (hl : l.numeric = false) (hlen : (s.prescribed a l.argp).length ≤ INT_MAX) :
    ∃ text added l', (∀ trav n rest cnt,
        loop a trav (n + 1) (s.text noRef ++ rest) l cnt =
          (loop a trav n rest l' (int (cnt + added))).map fun r => (text ++ r.1, r.2)) ∧
      ∀ errno, Strtol.Reads (text.map Char.toUInt8) s.conv.radix
        (s.readArgument (a.wide (s.place l.argp))) errno := by
  have hprint := conversion_integer (a := a) hs (s.ready a l) hl
  refine ⟨_, _, _, fun trav n rest cnt => loop_sequential s hprint, fun errno => ?_⟩
  rw [← number_argument s hs a l.argp hlen]
  exact Strtol.reads_number (by cases s.conv <;> exact .inr (by decide)) _ errno

theorem integer_read_back_minus_one :
    ∃ text added l', (∀ trav n rest cnt,
        loop ⟨fun _ => -1, fun _ => 0⟩ trav (n + 1)
            ((plainSpec [.plus] .none .hh .d).text noRef ++ rest) {} cnt =
          (loop ⟨fun _ => -1, fun _ => 0⟩ trav n rest l' (int (cnt + added))).map
            fun r => (text ++ r.1, r.2)) ∧
      ∀ errno, Strtol.Reads (text.map Char.toUInt8) 10 (-1) errno :=
  integer_read_back (plainSpec [.plus] .none .hh .d) (by decide) ⟨fun _ => -1, fun _ => 0⟩ {}
    rfl (by decide +kernel)

end DjgppLibc.DoprntLoop
