import DjgppLibc.C1args

/-!
# The lexer of `system` (`stdlib/system.c`)

`get_sym` delimits the next symbol of a command line and `__unquote` copies a
word without its quoting characters. Both look at the flags that allow several
commands on a line, `get_sym` at those of this run and `__unquote` at the
global ones, so the two have a parameter each. A string is the list of its
characters, and a NUL is its end.
-/
namespace DjgppLibc.System
open C1args

/-- `cmd_sym_t`. -/
inductive Sym
  | redirInput
  | redirOutput
  | redirAppend
  | pipe
  | semicolon
  | eol
  | word
  | unmatchedQuote
deriving DecidableEq

/-- Where `get_sym` is: before the first character of the symbol, in a word, or in a
quoted part of a word. -/
inductive Mode
  | start
  | inWord
  | quoted (quote : Char)
deriving DecidableEq

structure Lexed where
  sym : Sym
  text : List Char
  rest : List Char
deriving DecidableEq

def Lexed.push (cs : List Char) (l : Lexed) : Lexed := { l with text := cs ++ l.text }

def isQuote (c : Char) : Bool := c = '\'' || c = '"'

def delimits (multi : Bool) (c : Char) : Bool :=
  c = '<' || c = '>' || c = '|' || c = ' ' || c = '\t' || c = '\n' || (multi && c = ';')

def isEscaped (multi : Bool) (c : Char) : Bool := isQuote c || (multi && c = ';')

/-- The loop of `get_sym`. -/
def scan (multi : Bool) : Mode → List Char → Lexed
  | .start, [] => ⟨.eol, [], []⟩
  | .inWord, [] => ⟨.word, [], []⟩
  | .quoted _, [] => ⟨.unmatchedQuote, [], []⟩
  | .quoted quote, c :: s =>
      if c = quote then (scan multi .inWord s).push [c]
      else
        match s with
        | [] => (scan multi (.quoted quote) []).push [c]
        | d :: s =>
            if c = '\\' ∧ isQuote d then (scan multi (.quoted quote) s).push [c, d]
            else (scan multi (.quoted quote) (d :: s)).push [c]
  | mode, c :: s =>
      if mode = .inWord ∧ delimits multi c then ⟨.word, [], c :: s⟩
      else if c = '<' then ⟨.redirInput, [c], s⟩
      else if c = '>' then
        match s with
        | '>' :: s => ⟨.redirAppend, [c, '>'], s⟩
        | s => ⟨.redirOutput, [c], s⟩
      else if c = '|' then ⟨.pipe, [c], s⟩
      else if c = ';' ∧ multi then ⟨.semicolon, [c], s⟩
      else if isQuote c then (scan multi (.quoted c) s).push [c]
      else
        match s with
        | [] => (scan multi .inWord []).push [c]
        | d :: s =>
            if c = '\\' ∧ isEscaped multi d then (scan multi .inWord s).push [c, d]
            else (scan multi .inWord (d :: s)).push [c]

/-- `get_sym`: white space is skipped first. -/
def getSym (multi : Bool) (s : List Char) : Lexed := scan multi .start (s.dropWhile isspace)

/-- `__unquote` on the text of a word. The character that follows the word is read
when the last one is a backslash. -/
def unquote (multi : Bool) (after : Option Char) : Option Char → List Char → List Char
  | _, [] => []
  | quote, c :: s =>
      if isQuote c then
        unquote multi after (if quote = none then some c else if quote =
          some c then none else quote) s
      else
        match s with
        | [] => if c = '\\' ∧ after.any (isEscaped multi) then after.toList else [c]
        | d :: s =>
            if c = '\\' ∧ isEscaped multi d then d :: unquote multi after quote s
            else c :: unquote multi after quote (d :: s)

attribute [grind =] scan unquote

theorem scan_append (multi : Bool) (mode : Mode) (s : List Char) :
    (scan multi mode s).text ++ (scan multi mode s).rest = s := by
  fun_induction scan multi mode s <;> simp_all [Lexed.push]

/-- A word ends where the text does or in front of a character that ends it. -/
theorem scan_word_rest {multi : Bool} {mode : Mode} {s : List Char}
    (h : (scan multi mode s).sym = .word) {c : Char}
    (hc : (scan multi mode s).rest.head? = some c) : delimits multi c = true := by
  fun_induction scan multi mode s <;> simp_all [Lexed.push]

theorem scan_quoted_text {multi : Bool} {quote : Char} {s : List Char}
    (h : (scan multi (.quoted quote) s).sym = .word) :
    (scan multi (.quoted quote) s).text ≠ [] := by
  unfold scan at h ⊢
  cases s with
  | nil => exact absurd h (by simp)
  | cons c s =>
      dsimp only
      split_ifs
      · simp [Lexed.push]
      · cases s with
        | nil => simp [Lexed.push]
        | cons d s =>
            dsimp only
            split_ifs <;> simp [Lexed.push]

theorem getLast?_push {cs : List Char} {l : Lexed} {c : Char}
    (h : (l.push cs).text.getLast? = some c) :
    l.text.getLast? = some c ∨ l.text = [] ∧ cs.getLast? = some c := by
  rw [Lexed.push, List.getLast?_append] at h
  cases hl : l.text.getLast? with
  | none =>
      rw [hl, Option.none_or] at h
      exact .inr ⟨List.getLast?_eq_none_iff.mp hl, h⟩
  | some d =>
      rw [hl, Option.some_or] at h
      exact .inl h

theorem scan_word_last {multi : Bool} {mode : Mode} {s : List Char}
    (hq : ∀ q, mode = .quoted q → isQuote q = true) (h : (scan multi mode s).sym = .word)
    (hlast : (scan multi mode s).text.getLast? = some '\\') :
    (scan multi mode s).rest.head? ≠ some ';' := by
  fun_induction scan multi mode s with
  | case1 => exact absurd h (by simp)
  | case2 => simp
  | case3 => exact absurd h (by simp)
  | case4 c s ih =>
      rcases getLast?_push hlast with hl | ⟨-, hl⟩
      · exact ih (fun q hmode => absurd hmode (by simp)) h hl
      · obtain rfl : c = '\\' := by simpa using hl
        exact absurd (hq _ rfl) (by decide)
  | case5 quote c _ ih => exact absurd h (by simp [scan, Lexed.push])
  | case6 quote c _ d s hd ih =>
      rcases getLast?_push hlast with hl | ⟨ht, -⟩
      · exact ih hq h hl
      · exact absurd ht (scan_quoted_text h)
  | case7 quote c _ d s _ ih =>
      rcases getLast?_push hlast with hl | ⟨ht, -⟩
      · exact ih hq h hl
      · exact absurd ht (scan_quoted_text h)
  | case8 => exact absurd hlast (by simp)
  | case9 => exact absurd h (by simp)
  | case10 => exact absurd h (by simp)
  | case11 => exact absurd h (by simp)
  | case12 => exact absurd h (by simp)
  | case13 => exact absurd h (by simp)
  | case14 mode c s _ _ _ _ _ _ hc ih =>
      rcases getLast?_push hlast with hl | ⟨ht, -⟩
      · refine ih (fun q hmode => ?_) h hl
        cases hmode
        exact hc
      · exact absurd ht (scan_quoted_text h)
  | case15 => simp [scan, Lexed.push]
  | case16 mode c _ _ _ _ _ _ _ d s hd ih =>
      rcases getLast?_push hlast with hl | ⟨-, hl⟩
      · exact ih (fun q hmode => absurd hmode (by simp)) h hl
      · obtain rfl : d = '\\' := by simpa using hl
        exact absurd hd.2 (by cases multi <;> decide)
  | case17 mode c _ _ _ _ _ _ _ d s hd ih =>
      rcases getLast?_push hlast with hl | ⟨ht, hl⟩
      · exact ih (fun q hmode => absurd hmode (by simp)) h hl
      · -- the backslash itself is the last character, and the rest starts with `d`
        obtain rfl : c = '\\' := by simpa using hl
        have hrest : (scan multi .inWord (d :: s)).rest = d :: s := by
          have happ := scan_append multi .inWord (d :: s)
          rwa [ht, List.nil_append] at happ
        intro hsemi
        change (scan multi .inWord (d :: s)).rest.head? = some ';' at hsemi
        have hdel := scan_word_rest h hsemi
        rw [hrest, List.head?_cons, Option.some.injEq] at hsemi
        subst hsemi
        apply hd
        refine ⟨rfl, ?_⟩
        cases multi with
        | true => decide
        | false => exact absurd hdel (by decide)

section Unquote

variable {multi : Bool} {after quote : Option Char} {c d : Char} {s : List Char}

/-- The quote `__unquote` is in behind a quoting character. -/
def nextQuote (quote : Option Char) (c : Char) : Option Char :=
  if quote = none then some c else if quote = some c then none else quote

theorem unquote_quote (hc : isQuote c = true) :
    unquote multi after quote (c :: s) = unquote multi after (nextQuote quote c) s := by
  conv_lhs => rw [unquote.eq_def]
  exact if_pos hc

theorem unquote_plain (hc : isQuote c = false) (hb : c ≠ '\\') :
    unquote multi after quote (c :: s) = c :: unquote multi after quote s := by
  cases s with
  | nil => simp [unquote, hc, hb]
  | cons d s => rw [unquote, if_neg (by simp [hc]), if_neg (fun h => hb h.1)]

theorem unquote_escape (hd : isEscaped multi d = true) :
    unquote multi after quote ('\\' :: d :: s) = d :: unquote multi after quote s := by
  rw [unquote, if_neg (by decide), if_pos ⟨rfl, hd⟩]

theorem unquote_backslash (hd : isEscaped multi d = false) :
    unquote multi after quote ('\\' :: d :: s) = '\\' :: unquote multi after quote (d :: s) := by
  rw [unquote, if_neg (by decide), if_neg (by simp [hd])]

/-- The character behind the word counts only if a backslash would quote it. -/
theorem unquote_after
    (h : s.getLast? = some '\\' → after.any (isEscaped multi) = false) :
    unquote multi after quote s = unquote multi none quote s := by
  fun_induction unquote multi after quote s with
  | case1 => rfl
  | case2 quote c s hc ih =>
      rw [unquote_quote hc, nextQuote]
      apply ih
      intro hl
      apply h
      rw [List.getLast?_cons, hl]
      rfl
  | case3 quote c hc hb =>
      have ha := h (by rw [hb.1]; rfl)
      rw [hb.2] at ha
      exact absurd ha (by simp)
  | case4 quote c hc hb =>
      rw [unquote, if_neg hc, if_neg (by simp)]
  | case5 quote c hc d s hd ih =>
      rw [hd.1, unquote_escape hd.2, ih]
      intro hl
      apply h
      rw [List.getLast?_cons_cons, List.getLast?_cons, hl]
      rfl
  | case6 quote c hc d s hd ih =>
      rw [unquote, if_neg hc, if_neg hd, ih]
      intro hl
      apply h
      rw [List.getLast?_cons_cons, hl]

end Unquote

/-- For a word that `get_sym` delimits it does not count at all. -/
theorem unquote_word {multi multi' : Bool} {mode : Mode} {s : List Char} {quote : Option Char}
    (hq : ∀ q, mode = .quoted q → isQuote q = true) (h : (scan multi mode s).sym = .word) :
    unquote multi' (scan multi mode s).rest.head? quote (scan multi mode s).text =
      unquote multi' none quote (scan multi mode s).text := by
  apply unquote_after
  intro hl
  cases hr : (scan multi mode s).rest.head? with
  | none => rfl
  | some c =>
      have hdel := scan_word_rest h hr
      have hsemi := scan_word_last hq h hl
      rw [hr] at hsemi
      rw [Option.any_some]
      by_contra hesc
      rw [Bool.not_eq_false, isEscaped, isQuote] at hesc
      rw [delimits] at hdel
      simp only [Bool.or_eq_true, Bool.and_eq_true, decide_eq_true_eq] at hesc hdel
      rcases hesc with (rfl | rfl) | ⟨-, rfl⟩
      · exact absurd hdel (by simp)
      · exact absurd hdel (by simp)
      · exact hsemi rfl

/-- The text has white space outside quotes, a quote of the other kind inside quotes, or
a backslash in front of a semicolon that `__unquote` takes away. -/
def clash (multi : Bool) : Option Char → List Char → Bool
  | _, [] => false
  | quote, c :: s =>
      if quote = none ∧ isspace c then true
      else if quote = some c then clash multi none s
      else if isQuote c then
        match quote with
        | none => clash multi (some c) s
        | some _ => true
      else
        match s with
        | [] => false
        | d :: s =>
            if c = '\\' ∧ isQuote d then clash multi quote s
            else if c = '\\' ∧ isEscaped multi d then true
            else clash multi quote (d :: s)

attribute [grind =] clash

section Compare

variable {multi : Bool} {beyond : List Char} {quote : Option Char} {c d : Char} {s : List Char}

theorem parseArg_plain (hs : ¬ (quote = none ∧ isspace c = true)) (hq : quote ≠ some c)
    (hc : quote = none → isQuote c = false)
    (hd : ∀ d t, s = d :: t → ¬ (c = '\\' ∧ isQuoteOrNul d = true)) :
    ∃ w, parseArg true beyond quote (c :: s) = (parseArg true beyond quote s).emit [c] w := by
  have hopen : ¬ (quote = none ∧ (c = '\'' ∨ c = '"')) := by
    rintro ⟨h₁, h₂⟩
    have := hc h₁
    rw [isQuote] at this
    simp only [Bool.or_eq_false_iff, decide_eq_false_iff_not] at this
    exact h₂.elim this.1 this.2
  cases s with
  | nil =>
      refine ⟨quote.isSome && isWildcard ([c] ++ beyond) && true, ?_⟩
      conv_lhs => rw [parseArg, if_neg hs, if_neg hq, if_neg hopen]
  | cons d s =>
      rw [parseArg, if_neg hs, if_neg hq, if_neg hopen]
      dsimp only
      rw [if_neg (hd d s rfl)]
      exact ⟨_, rfl⟩

theorem parseArg_space (hs : quote = none ∧ isspace c = true) :
    (parseArg true beyond quote (c :: s)).rest ≠ [] := by
  rw [parseArg.eq_def]
  dsimp only
  rw [if_pos hs]
  simp

theorem parseArg_close (hs : ¬ (quote = none ∧ isspace c = true)) (hq : quote = some c) :
    parseArg true beyond quote (c :: s) = parseArg true beyond none s := by
  conv_lhs => rw [parseArg.eq_def]
  dsimp only
  rw [if_neg hs, if_pos hq]
  rfl

theorem parseArg_open (hs : isspace c = false) (hc : isQuote c = true) :
    parseArg true beyond none (c :: s) = parseArg true beyond (some c) s := by
  conv_lhs => rw [parseArg.eq_def]
  dsimp only
  rw [if_neg (by simp [hs]), if_neg (by simp), if_pos ⟨rfl, by simpa [isQuote] using hc⟩]
  rfl

theorem parseArg_escape (hq : quote ≠ some '\\') (hd : isQuote d = true) :
    parseArg true beyond quote ('\\' :: d :: s) =
      (parseArg true beyond quote s).emit [d] false := by
  have hd' : isQuoteOrNul d = true := by
    rw [isQuote] at hd
    rw [isQuoteOrNul, hd]
    rfl
  rw [parseArg, if_neg (by simp [isspace]), if_neg hq, if_neg (by simp)]
  dsimp only
  rw [if_pos ⟨rfl, hd'⟩]
  rfl

/-- How the two scanners move on from a text. They take the same characters, except
that `__unquote` leaves one out where there is a clash. -/
inductive Move (multi : Bool) (beyond : List Char) (quote : Option Char) (s : List Char) : Prop
  | stop (hparse : (parseArg true beyond quote s).rest ≠ []) (hclash : clash multi quote s = true)
  | same (quote' : Option Char) (s' cs : List Char) (w : Bool) (hlt : s'.length < s.length)
      (hsub : s' ⊆ s) (hquote : ∀ q ∈ quote', isQuote q = true)
      (hparse : parseArg true beyond quote s = (parseArg true beyond quote' s').emit cs w)
      (hunquote : unquote multi none quote s = cs ++ unquote multi none quote' s')
      (hclash : clash multi quote s = clash multi quote' s')
  | less (s' : List Char) (c : Char) (w : Bool) (hlt : s'.length < s.length) (hsub : s' ⊆ s)
      (hparse : parseArg true beyond quote s = (parseArg true beyond quote s').emit [c] w)
      (hunquote : unquote multi none quote s = unquote multi none quote s')
      (hclash : clash multi quote s = true)

theorem clash_last (hs : ¬ (quote = none ∧ isspace c = true)) (hq : quote ≠ some c)
    (hc : isQuote c = false) : clash multi quote [c] = false := by
  rw [clash.eq_def]
  dsimp only
  rw [if_neg hs, if_neg hq, if_neg (by simp [hc])]

theorem clash_plain (hs : ¬ (quote = none ∧ isspace c = true)) (hq : quote ≠ some c)
    (hc : isQuote c = false) :
    clash multi quote (c :: d :: s) =
      if c = '\\' ∧ isQuote d then clash multi quote s
      else if c = '\\' ∧ isEscaped multi d then true
      else clash multi quote (d :: s) := by
  conv_lhs => rw [clash.eq_def]
  dsimp only
  rw [if_neg hs, if_neg hq, if_neg (by simp [hc])]

variable (multi beyond)

theorem move_quote (hs : ¬ (quote = none ∧ isspace c = true))
    (hq : ∀ q ∈ quote, isQuote q = true) (hc : isQuote c = true) :
    Move multi beyond quote (c :: s) := by
  have hlt : s.length < (c :: s).length := Nat.lt_succ_self _
  have hsub : s ⊆ c :: s := List.subset_cons_self c s
  cases quote with
  | none =>
      have hspace : isspace c = false := by simpa using hs
      refine .same (some c) s [] false hlt hsub ?_ (parseArg_open hspace hc) ?_ ?_
      · intro q hqc
        obtain rfl := Option.some.inj hqc
        exact hc
      · rw [unquote_quote hc]
        rfl
      · conv_lhs => rw [clash.eq_def]
        dsimp only
        rw [if_neg hs, if_neg (by simp), if_pos hc]
  | some q =>
      by_cases hqc : q = c
      · subst hqc
        refine .same none s [] false hlt hsub (by simp) (parseArg_close hs rfl) ?_ ?_
        · rw [unquote_quote hc, nextQuote, if_neg (by simp), if_pos rfl]
          rfl
        · conv_lhs => rw [clash.eq_def]
          dsimp only
          rw [if_neg hs, if_pos rfl]
      · have hqc' : some q ≠ some c := by simpa using hqc
        have hback : ∀ d t, s = d :: t → ¬ (c = '\\' ∧ isQuoteOrNul d = true) := by
          rintro d t - ⟨rfl, -⟩
          exact absurd hc (by decide)
        obtain ⟨w, hw⟩ := parseArg_plain hs hqc' (by simp) hback
        refine .less s c w hlt hsub hw ?_ ?_
        · rw [unquote_quote hc, nextQuote, if_neg (by simp), if_neg hqc']
        · rw [clash.eq_def]
          dsimp only
          rw [if_neg hs, if_neg hqc', if_pos hc]

theorem move_plain (hs : ¬ (quote = none ∧ isspace c = true))
    (hq : ∀ q ∈ quote, isQuote q = true) (hc : isQuote c = false) (hnul : '\x00' ∉ s) :
    Move multi beyond quote (c :: s) := by
  have hlt : s.length < (c :: s).length := Nat.lt_succ_self _
  have hsub : s ⊆ c :: s := List.subset_cons_self c s
  have hqc : quote ≠ some c := by
    rintro rfl
    rw [hq c rfl] at hc
    exact absurd hc (by simp)
  by_cases hback : c = '\\'
  · subst hback
    cases s with
    | nil =>
        obtain ⟨w, hw⟩ := parseArg_plain (s := []) hs hqc (fun _ => hc)
          (by simp)
        refine .same quote [] ['\\'] w hlt hsub hq hw ?_ ?_
        · simp [unquote, hc]
        · rw [clash_last hs hqc hc]
          rfl
    | cons d s =>
        by_cases hd : isQuote d = true
        · refine .same quote s [d] false (hlt.trans' (Nat.lt_succ_self _))
            (fun x hx => hsub (by simp [hx])) hq (parseArg_escape hqc hd) ?_ ?_
          · rw [unquote_escape (by simp [isEscaped, hd])]
            rfl
          · rw [clash_plain hs hqc hc, if_pos ⟨rfl, hd⟩]
        · have hnext : ∀ e t, d :: s = e :: t → ¬ ('\\' = '\\' ∧ isQuoteOrNul e = true) := by
            rintro e t he ⟨-, hnq⟩
            cases he
            rw [isQuoteOrNul, ← isQuote.eq_def] at hnq
            simp only [hd, Bool.false_or, decide_eq_true_eq] at hnq
            exact hnul (by simp [hnq])
          obtain ⟨w, hw⟩ := parseArg_plain hs hqc (fun _ => hc) hnext
          by_cases hesc : isEscaped multi d = true
          · -- an escaped semicolon
            have hsemi : d = ';' := by
              rw [isEscaped] at hesc
              simp only [hd, Bool.false_or, Bool.and_eq_true, decide_eq_true_eq] at hesc
              exact hesc.2
            refine .less (d :: s) '\\' w hlt hsub hw ?_ ?_
            · rw [unquote_escape hesc, unquote_plain (by simpa using hd) (by rw [hsemi]; decide)]
            · rw [clash_plain hs hqc hc, if_neg (fun h => hd h.2), if_pos ⟨rfl, hesc⟩]
          · refine .same quote (d :: s) ['\\'] w hlt hsub hq hw ?_ ?_
            · rw [unquote_backslash (by simpa using hesc)]
              rfl
            · rw [clash_plain hs hqc hc, if_neg (fun h => hd h.2), if_neg (fun h => hesc h.2)]
  · obtain ⟨w, hw⟩ := parseArg_plain (s := s) hs hqc (fun _ => hc)
      (fun _ _ _ h => hback h.1)
    refine .same quote s [c] w hlt hsub hq hw ?_ ?_
    · rw [unquote_plain hc hback]
      rfl
    · cases s with
      | nil =>
          rw [clash_last hs hqc hc]
          rfl
      | cons d s =>
          rw [clash_plain hs hqc hc, if_neg (fun h => hback h.1), if_neg (fun h => hback h.1)]

theorem move (hq : ∀ q ∈ quote, isQuote q = true) (hnul : '\x00' ∉ s) :
    Move multi beyond quote (c :: s) := by
  by_cases hs : quote = none ∧ isspace c = true
  · refine .stop (parseArg_space hs) ?_
    rw [clash.eq_def]
    exact if_pos hs
  · cases hc : isQuote c with
    | true => exact move_quote multi beyond hs hq hc
    | false => exact move_plain multi beyond hs hq hc hnul

/-- `parse_arg` never gives less than `__unquote` on a text that it takes as one argument. -/
theorem unquote_length_le (hq : ∀ q ∈ quote, isQuote q = true) (hnul : '\x00' ∉ s)
    (h : (parseArg true beyond quote s).rest = []) :
    (unquote multi none quote s).length ≤ (parseArg true beyond quote s).arg.length := by
  induction hn : s.length using Nat.strong_induction_on generalizing s quote with
  | _ n ih =>
      cases s with
      | nil => simp [unquote]
      | cons c s =>
          obtain ⟨hparse, -⟩ | ⟨quote', s', cs, w, hlt, hsub, hq', hparse, hun, -⟩ |
            ⟨s', c', w, hlt, hsub, hparse, hun, -⟩ :=
            move multi beyond (c := c) (s := s) hq (fun hm => hnul (by simp [hm]))
          · exact absurd h hparse
          · rw [hparse] at h ⊢
            have := ih s'.length (hn ▸ hlt) hq' (fun hm => hnul (hsub hm)) h rfl
            rw [hun]
            simp only [Parsed.emit, List.length_append]
            omega
          · rw [hparse] at h ⊢
            have := ih s'.length (hn ▸ hlt) hq (fun hm => hnul (hsub hm)) h rfl
            rw [hun]
            simp only [Parsed.emit, List.length_append]
            omega

theorem unquote_eq_iff (hq : ∀ q ∈ quote, isQuote q = true) (hnul : '\x00' ∉ s) :
    ((parseArg true beyond quote s).rest = [] ∧
        (parseArg true beyond quote s).arg = unquote multi none quote s) ↔
      clash multi quote s = false := by
  induction hn : s.length using Nat.strong_induction_on generalizing s quote with
  | _ n ih =>
      cases s with
      | nil => simp [unquote, parseArg, clash]
      | cons c s =>
          obtain ⟨hparse, hclash⟩ | ⟨quote', s', cs, w, hlt, hsub, hq', hparse, hun, hclash⟩ |
            ⟨s', c', w, hlt, hsub, hparse, hun, hclash⟩ :=
            move multi beyond (c := c) (s := s) hq (fun hm => hnul (by simp [hm]))
          · rw [hclash]
            exact iff_of_false (fun h => hparse h.1) (by simp)
          · rw [hparse, hun, hclash, ← ih s'.length (hn ▸ hlt) hq' (fun hm => hnul (hsub hm)) rfl]
            simp [Parsed.emit]
          · rw [hclash]
            refine iff_of_false ?_ (by simp)
            rintro ⟨hrest, harg⟩
            rw [hparse] at hrest harg
            have hle := unquote_length_le multi beyond hq (fun hm => hnul (hsub hm)) hrest
            rw [← hun, ← harg] at hle
            simp only [Parsed.emit, List.length_append, List.length_singleton] at hle
            omega

end Compare

theorem getSym_text_subset (multi : Bool) (s : List Char) : (getSym multi s).text ⊆ s := by
  intro c hc
  have happ := scan_append multi .start (s.dropWhile isspace)
  apply (List.dropWhile_suffix isspace).subset
  rw [← happ]
  exact List.mem_append_left _ hc

/-- A word that `get_sym` delimits is one argument for `parse_arg`, and the argument is
what `__unquote` makes of it, if and only if the word has no clash. -/
theorem word_one_argument_iff (multi multi' : Bool) (beyond s : List Char) (hnul : '\x00' ∉ s)
    (hword : (getSym multi s).sym = .word) :
    ((parseArg true beyond none (getSym multi s).text).rest = [] ∧
        (parseArg true beyond none (getSym multi s).text).arg =
          unquote multi' (getSym multi s).rest.head? none (getSym multi s).text) ↔
      clash multi' none (getSym multi s).text = false := by
  have hun : unquote multi' (getSym multi s).rest.head? none (getSym multi s).text =
      unquote multi' none none (getSym multi s).text :=
    unquote_word (fun q hq => absurd hq (by simp)) hword
  rw [hun]
  exact unquote_eq_iff multi' beyond (by simp) fun h => hnul (getSym_text_subset multi s h)

/-- The word `a"b c"\'` in front of another one. -/
theorem word_one_argument_quoted :
    (parseArg true [] none ['a', '"', 'b', ' ', 'c', '"', '\\', '\'']).arg =
      ['a', 'b', ' ', 'c', '\''] ∧
    (parseArg true [] none ['a', '"', 'b', ' ', 'c', '"', '\\', '\'']).rest = [] :=
  ⟨((word_one_argument_iff false false [] [' ', 'a', '"', 'b', ' ', 'c', '"', '\\', '\'', ' ', 'd']
    (by decide) (by decide)).mpr (by decide)).2,
  ((word_one_argument_iff false false [] [' ', 'a', '"', 'b', ' ', 'c', '"', '\\', '\'', ' ', 'd']
    (by decide) (by decide)).mpr (by decide)).1⟩

/-- The word `"it's"`: `__unquote` loses the apostrophe. -/
theorem unquote_drops_apostrophe :
    getSym false ['"', 'i', 't', '\'', 's', '"'] = ⟨.word, ['"', 'i', 't', '\'', 's', '"'], []⟩ ∧
      (parseArg true [] none ['"', 'i', 't', '\'', 's', '"']).arg = ['i', 't', '\'', 's'] ∧
      unquote false none none ['"', 'i', 't', '\'', 's', '"'] = ['i', 't', 's'] := by
  decide

end DjgppLibc.System
