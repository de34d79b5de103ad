import DjgppLibc.DjasmTable
import DjgppLibc.DoscanNumbuf
import DjgppLibc.Outcomes

/-!
# The lexer of `djasm`

`yylex1` takes one token from the file that is read, or from the one that includes it. A file
is the text that it still gives, and EOF comes again and again behind it. Characters are
stored in `strbuf` and copied to `last_token`; a store outside these arrays stops the model,
and so does one outside the array in which `fscanf` collects a number. A loop without an end
uses up all the fuel.
-/
namespace DjgppLibc.Djasm

open Outcomes

inductive Token
  | eof
  | PC
  | KID
  | UID
  | NUMBER
  | STRING
  | OP_GE
  | OP_LE
  | OP_NE
  | OP_AND
  | OP_OR
  | OP_SHL
  | OP_SHR
  /-- The token of an opcode. -/
  | opcode (token : ℕ)
  | char (c : Char)
deriving DecidableEq

/-- `yylval` -/
inductive Value
  | i (v : BitVec 32)
  | sym (name : Name)
deriving DecidableEq

inductive Stop
  /-- A store outside `strbuf` or `last_token`. -/
  | outside
  /-- A store outside the array of `fscanf`. -/
  | overrun
  /-- All the fuel is used up. -/
  | unfinished
deriving DecidableEq

/-- A file that includes another one, and the place of the line that does so. -/
structure FileStack where
  f : List Char
  place : Place

/-- The name of the file and the line are those of `asm`, and so is the table of symbols. -/
structure Lexer where
  infile : List Char
  fileStack : List FileStack
  asm : Asm
  strbuf : Vector Char 200
  strbuflen : ℕ
  lastToken : List Char
  yylval : Value

/-- `strbuf[i] = c` -/
def Lexer.put (s : Lexer) (i : ℕ) (c : Char) : Except Stop Lexer :=
  if h : i < 200 then .ok { s with strbuf := s.strbuf.set i c } else .error .outside

def Lexer.puts : ℕ → List Char → Lexer → Except Stop Lexer
  | _, [], s => .ok s
  | i, c :: l, s => do
      let s ← s.put i c
      puts (i + 1) l s

/-- `strcpy` or `sprintf` to `last_token` -/
def Lexer.setToken (text : List Char) (s : Lexer) : Except Stop Lexer :=
  if text.length < 100 then .ok { s with lastToken := text } else .error .outside

/-- The string in `strbuf`. Without a NUL it is longer than any other one. -/
def Lexer.string (s : Lexer) : Name := s.strbuf.toList.takeWhile (· ≠ '\x00')

def isBlank (c : Char) : Bool := c = ' ' || c = '\t'

/-- The characters a name can begin with, but for the question mark. -/
def isNameStart (c : Char) : Bool :=
  'a' ≤ c && c ≤ 'z' || 'A' ≤ c && c ≤ 'Z' || c = '_' || c = '$' || c = '.' || c = '@'

def isNameChar (c : Char) : Bool := isNameStart c || Doscan.isdigit c

/-- `fscanf (infile, "%[a-zA-Z0-9_$.@]", strbuf + i)`: without a character for it, nothing is
stored. -/
def Lexer.scanName (i : ℕ) (s : Lexer) : Except Stop Lexer :=
  let name := (s.infile.takeWhile isNameChar).take Doscan.defaultWidth
  if name = [] then .ok s
  else Lexer.puts i (name ++ ['\x00']) { s with infile := s.infile.drop name.length }

/-- The entries of `opcodes` by their names: the token with its attribute. -/
abbrev Opcodes := Name → Option (ℕ × BitVec 32)

/-- The name is in `strbuf`. -/
def nameToken (opcodes : Opcodes) (s : Lexer) : Except Stop (Token × Lexer) := do
  let s ← s.setToken s.string
  if s.string = ['.'] then .ok (.PC, s)
  else
    match opcodes s.string with
    | some (token, attr) => .ok (.opcode token, { s with yylval := .i attr })
    | none =>
        let asm := getSymbol s.asm s.string
        let defined := (findSymbol asm.symtab s.string).any (·.defined)
        .ok (if defined then .KID else .UID, { s with asm := asm, yylval := .sym s.string })

/-- `%d` -/
def decimal (v : BitVec 32) : List Char :=
  let digits := Nat.toDigits 10 v.toInt.natAbs
  if v.toInt < 0 then '-' :: digits else digits

/-- `fscanf (infile, "%i", &yylval.i)` at a digit -/
def numberToken (s : Lexer) : Except Stop (Token × Lexer) :=
  match Doscan.innumLow Doscan.initialTable 'i' Doscan.defaultWidth .regular true s.infile with
  | .error _ => .error .overrun
  | .ok r => do
      -- a digit is there, so a number has been stored
      let v := match r.value with
        | some (.int v) => v
        | _ => 0
      let s ← Lexer.setToken (decimal v) { s with infile := r.text, yylval := .i v }
      .ok (.NUMBER, s)

def twochars : List (Char × Char × Token) :=
  [('=', '=', .char '='), ('>', '=', .OP_GE), ('<', '=', .OP_LE), ('<', '>', .OP_NE),
    ('!', '=', .OP_NE), ('&', '&', .OP_AND), ('|', '|', .OP_OR), ('<', '<', .OP_SHL),
    ('>', '>', .OP_SHR)]

def operatorToken (c : Char) (s : Lexer) : Token × Lexer :=
  match twochars.find? fun e => c = e.1 && s.infile.head? = some e.2.1 with
  | some e => (e.2.2, { s with infile := s.infile.tail })
  | none => (.char c, s)

def eofChar : Char := Char.ofNat 255

def unescape (c : Char) : Char :=
  if c = '0' then '\x00' else if c = 'n' then '\n' else if c = 'r' then '\r'
  else if c = 't' then '\t' else c

/-- The loop over a string from its character number `i` on: how long it is. -/
def quoteLoop (quote : Char) : ℕ → ℕ → Lexer → Except Stop (ℕ × Lexer)
  | 0, _, _ => .error .unfinished
  | fuel + 1, i, s =>
      match s.infile with
      | [] => do
          let s ← s.put i eofChar
          quoteLoop quote fuel (i + 1) s
      | c :: text =>
          if c = quote then .ok (i, { s with infile := text })
          else if c = '\\' then do
            let d := text.head?.elim eofChar unescape
            let s ← Lexer.put { s with infile := text.tail } i d
            quoteLoop quote fuel (i + 1) s
          else do
            let s ← Lexer.put { s with infile := text } i c
            quoteLoop quote fuel (i + 1) s

def stringToken (quote : Char) (fuel : ℕ) (s : Lexer) : Except Stop (Token × Lexer) := do
  let (i, s) ← quoteLoop quote fuel 0 s
  let s ← s.setToken s.string
  let s := { s with strbuflen := i }
  if i = 1 then
    let v := (BitVec.ofNat 8 s.strbuf.head.toNat).signExtend 32
    .ok (.NUMBER, { s with yylval := .i v })
  else .ok (.STRING, s)

/-- `while (fgetc (infile) != '\n')` -/
def skipLine : ℕ → List Char → Except Stop (List Char)
  | 0, _ => .error .unfinished
  | fuel + 1, text =>
      if text.head? = some '\n' then .ok text.tail else skipLine fuel text.tail

def newline (s : Lexer) : Except Stop (Token × Lexer) := do
  let s ← s.setToken ['N', 'L']
  .ok (.char '\n', s)

/-- The token that begins with `c`. -/
def lexToken (opcodes : Opcodes) (fuel : ℕ) (c : Char) (s : Lexer) : Except Stop (Token × Lexer) :=
  if c = '?' then do
    let s ← s.put 0 c
    let s ← s.scanName 1
    nameToken opcodes s
  else if isNameStart c then do
    let s ← Lexer.scanName 0 { s with infile := c :: s.infile }
    nameToken opcodes s
  else if Doscan.isdigit c then numberToken { s with infile := c :: s.infile }
  else if c ∈ ['>', '<', '!', '&', '|', '='] then .ok (operatorToken c s)
  else if c = '"' ∨ c = '\'' then stringToken c fuel s
  else if c = ';' then do
    let text ← skipLine fuel s.infile
    newline { s with infile := text }
  else if c = '\n' then newline s
  else do
    let s ← s.setToken ['<', c, '>']
    .ok (.char c, s)

def lexFiles (opcodes : Opcodes) (fuel : ℕ) :
    List FileStack → Lexer → Except Stop (Token × Lexer)
  | [], s =>
      match s.infile.dropWhile isBlank with
      | [] => .ok (.eof, { s with infile := [], fileStack := [] })
      | c :: text => lexToken opcodes fuel c { s with infile := text, fileStack := [] }
  | top :: prev, s =>
      match s.infile.dropWhile isBlank with
      | [] =>
          let place : Place := ⟨top.place.filename, top.place.lineno + 1⟩
          lexFiles opcodes fuel prev
            { s with infile := top.f, asm := { s.asm with place := place } }
      | c :: text => lexToken opcodes fuel c { s with infile := text, fileStack := top :: prev }

def yylex1 (opcodes : Opcodes) (fuel : ℕ) (s : Lexer) : Except Stop (Token × Lexer) :=
  lexFiles opcodes fuel s.fileStack s

attribute [grind =] Lexer.puts quoteLoop skipLine lexFiles

def current : List Char → List FileStack → List Char
  | infile, [] => infile.dropWhile isBlank
  | infile, top :: prev =>
      match infile.dropWhile isBlank with
      | [] => current top.f prev
      | c :: text => c :: text

def closed (quote : Char) : List Char → Option (List Char)
  | [] => none
  | c :: text =>
      if c = quote then some []
      else if c = '\\' then
        match text with
        | [] => none
        | d :: text => (closed quote text).map (unescape d :: ·)
      else (closed quote text).map (c :: ·)

attribute [grind =] current closed

def beforeNul (l : List Char) : List Char := l.takeWhile (· ≠ '\x00')

/-- The token at the start of the text fits its arrays and has an end: a name or what is found
in its place is shorter than `last_token`, a number than the array of `fscanf`, a string is
closed and fits `strbuf`, and has a NUL in it, or behind it from an earlier token, that comes in
time for `last_token`, and a comment ends at a line end. -/
def TokenFits (strbuf : List Char) : List Char → Prop
  | [] => True
  | c :: text =>
      let name := text.takeWhile isNameChar
      if c = '?' then
        if name = [] then (beforeNul (c :: strbuf.tail)).length < 100 else name.length + 1 < 100
      else if isNameStart c then name.length + 1 < 100
      else if Doscan.isdigit c then
        ∀ p, Doscan.IsNumber 'i' Doscan.defaultWidth p → p <+: c :: text → p.length < 64
      else if c = '"' ∨ c = '\'' then
        ∃ chars, closed c text = some chars ∧ chars.length ≤ 200 ∧
          (beforeNul (chars ++ strbuf.drop chars.length)).length < 100
      else c = ';' → '\n' ∈ text

def Fits (s : Lexer) : Prop := TokenFits s.strbuf.toList (current s.infile s.fileStack)

/-- A call of `yylex1` returns, and all its stores are in the arrays. -/
def Returns (opcodes : Opcodes) (s s' : Lexer) : Prop :=
  ∃ fuel token, yylex1 opcodes fuel s = .ok (token, s')

/-- A run of calls, before each of which the parser may have changed the state. -/
def AllReturn (opcodes : Opcodes) : List (Lexer → Lexer) → Lexer → Prop
  | [], _ => True
  | parse :: moves, s => ∃ s', Returns opcodes (parse s) s' ∧ AllReturn opcodes moves s'

def AllFit (opcodes : Opcodes) : List (Lexer → Lexer) → Lexer → Prop
  | [], _ => True
  | parse :: moves, s =>
      Fits (parse s) ∧ ∀ s', Returns opcodes (parse s) s' → AllFit opcodes moves s'

section
variable {fault : Stop → Prop} {opcodes : Opcodes} {fuel i : ℕ} {s : Lexer} {c quote : Char}
  {l text : List Char}

/-- The file is the same, and `strbuf` has this contents. -/
structure Stored (s : Lexer) (l : List Char) (s' : Lexer) : Prop where
  infile : s'.infile = s.infile
  strbuf : s'.strbuf.toList = l

theorem put_outcome (s : Lexer) (i : ℕ) (c : Char) :
    Outcome fault (i < 200) (Stored s (s.strbuf.toList.set i c)) (s.put i c) := by
  unfold Lexer.put
  split
  · next h => exact (Outcome.pure ⟨rfl, Vector.toList_set h⟩).congr (iff_of_true trivial h)
  · next h => exact Outcome.stop h

theorem length_strbuf (s : Lexer) : s.strbuf.toList.length = 200 := Vector.length_toList

theorem set_take_drop (h : i < l.length) (c : Char) (l' : List Char) :
    (l.set i c).take (i + 1) ++ l' ++ (l.set i c).drop (i + 1 + l'.length) =
      l.take i ++ (c :: l') ++ l.drop (i + (c :: l').length) := by
  have hlen : (c :: l').length = l'.length + 1 := rfl
  have hdrop : (l.set i c).drop (i + 1 + l'.length) = l.drop (i + (c :: l').length) := by
    rw [List.drop_set, if_pos (by omega), hlen]
    congr 1
    omega
  have htake : (l.set i c).take (i + 1) = l.take i ++ [c] := by
    rw [List.take_succ_eq_append_getElem (by rw [List.length_set]; exact h), List.getElem_set_self,
      List.take_set_of_le (Nat.le_refl i)]
  rw [hdrop, htake]
  simp

theorem puts_outcome (hi : i ≤ 200) (l : List Char) (s : Lexer) :
    Outcome fault (i + l.length ≤ 200)
      (Stored s (s.strbuf.toList.take i ++ l ++ s.strbuf.toList.drop (i + l.length)))
      (Lexer.puts i l s) := by
  induction l generalizing i s with
  | nil =>
      refine (Outcome.pure ⟨rfl, ?_⟩).congr (iff_of_true trivial hi)
      simp
  | cons c l ih =>
      refine ((put_outcome s i c).bind fun s₁ hlt h₁ => ((ih hlt s₁).mono ?_)).congr ?_
      · rintro s₂ ⟨hinfile, hstrbuf⟩
        refine ⟨hinfile.trans h₁.infile, ?_⟩
        rw [hstrbuf, h₁.strbuf]
        exact set_take_drop (by rw [length_strbuf]; exact hlt) c l
      · rw [List.length_cons]
        omega

theorem setToken_outcome (text : List Char) (s : Lexer) :
    Outcome fault (text.length < 100) (fun s' => s'.strbuf = s.strbuf) (s.setToken text) := by
  unfold Lexer.setToken
  split
  · next h =>
    refine Outcome.congr ?_ (iff_of_true trivial h)
    exact Outcome.pure rfl
  · next h => exact Outcome.stop h

theorem string_eq (s : Lexer) : s.string = beforeNul s.strbuf.toList := rfl

theorem nameToken_outcome (opcodes : Opcodes) (s : Lexer) :
    Outcome fault (s.string.length < 100) (fun _ => True) (nameToken opcodes s) := by
  unfold nameToken
  refine ((setToken_outcome s.string s).bind fun s _ _ => ?_).congr (and_iff_left trivial)
  split
  · exact Outcome.pure trivial
  · split <;> exact Outcome.pure trivial

theorem beforeNul_append (h : '\x00' ∉ l) (l' : List Char) :
    beforeNul (l ++ '\x00' :: l') = l := by
  have hl : ∀ c ∈ l, decide (c ≠ '\x00') = true := by
    intro c hc
    refine decide_eq_true ?_
    rintro rfl
    exact h hc
  rw [beforeNul, List.takeWhile_append_of_pos hl]
  simp

theorem nul_not_mem_name (text : List Char) : '\x00' ∉ text.takeWhile isNameChar :=
  fun h => absurd (List.mem_takeWhile_imp h) (by decide)

/-- What a scan for a name leaves in `strbuf`. -/
theorem scanName_outcome (hi : i ≤ 1) (s : Lexer) :
    Outcome fault (s.infile.takeWhile isNameChar ≠ [] →
        i + (s.infile.takeWhile isNameChar).length < 200)
      (fun s' => s'.strbuf.toList = if s.infile.takeWhile isNameChar = [] then s.strbuf.toList else
        s.strbuf.toList.take i ++ s.infile.takeWhile isNameChar ++ '\x00' ::
          s.strbuf.toList.drop (i + (s.infile.takeWhile isNameChar).length + 1))
      (s.scanName i) := by
  unfold Lexer.scanName
  dsimp only
  generalize hname : s.infile.takeWhile isNameChar = name
  have hwidth : Doscan.defaultWidth = 30000 := rfl
  by_cases hnil : name = []
  · rw [hnil, List.take_nil, if_pos rfl]
    exact (Outcome.pure (by simp)).congr (by simp)
  · have hpos : 0 < name.length := List.length_pos_iff.mpr hnil
    by_cases hlong : name.length ≤ Doscan.defaultWidth
    · rw [List.take_of_length_le hlong, if_neg hnil, if_neg hnil]
      have hstores : Outcome fault (i + (name ++ ['\x00']).length ≤ 200) _
          (Lexer.puts i (name ++ ['\x00']) { s with infile := s.infile.drop name.length }) :=
        puts_outcome (by omega) _ _
      refine (hstores.congr ?_).mono ?_
      · simp [hnil]
        omega
      · rintro s' ⟨-, hstrbuf⟩
        rw [hstrbuf]
        simp [Nat.add_assoc]
    · -- A name that is cut at the width is too long anyway.
      have hcut : (name.take Doscan.defaultWidth).length = 30000 := by
        rw [List.length_take]
        omega
      have hne : name.take Doscan.defaultWidth ≠ [] := by
        rw [← List.length_pos_iff, hcut]
        decide
      rw [if_neg hne]
      have hstores : Outcome fault (i + (name.take Doscan.defaultWidth ++ ['\x00']).length ≤ 200) _
          (Lexer.puts i (name.take Doscan.defaultWidth ++ ['\x00'])
            { s with infile := s.infile.drop (name.take Doscan.defaultWidth).length }) :=
        puts_outcome (by omega) _ _
      have hover : ¬ i + (name.take Doscan.defaultWidth ++ ['\x00']).length ≤ 200 := by
        rw [List.length_append, hcut]
        omega
      have hlong' : ¬ (name ≠ [] → i + name.length < 200) := fun h => by
        have := h hnil
        omega
      exact ⟨fun s' hs' => absurd (hstores.ok s' hs').1 hover, fun _ _ _ => hlong'⟩

theorem name_outcome (opcodes : Opcodes) (hc : isNameStart c = true) (s : Lexer) :
    Outcome fault ((s.infile.takeWhile isNameChar).length + 1 < 100) (fun _ => True)
      (Lexer.scanName 0 { s with infile := c :: s.infile } >>= nameToken opcodes) := by
  have hchar : isNameChar c = true := by
    rw [isNameChar, hc, Bool.true_or]
  have hname : (c :: s.infile).takeWhile isNameChar = c :: s.infile.takeWhile isNameChar :=
    List.takeWhile_cons_of_pos hchar
  have hscan : Outcome fault _ _ (Lexer.scanName 0 { s with infile := c :: s.infile }) :=
    scanName_outcome (Nat.zero_le 1) _
  dsimp only at hscan
  rw [hname, if_neg (List.cons_ne_nil _ _)] at hscan
  refine (hscan.bind fun s' hfits hstrbuf => ?_).congr (p := _ ∧ _) (and_iff_right_of_imp ?_)
  · have hstring : s'.string = c :: s.infile.takeWhile isNameChar := by
      rw [string_eq, hstrbuf, List.take_zero, List.nil_append, ← hname]
      exact beforeNul_append (nul_not_mem_name _) _
    have htoken : Outcome fault (s'.string.length < 100) (fun _ => True) (nameToken opcodes s') :=
      nameToken_outcome opcodes s'
    rw [hstring] at htoken
    exact htoken
  · rw [List.length_cons]
    omega

/-- A question mark with a name, or with what is behind it in `strbuf`. -/
theorem local_outcome (opcodes : Opcodes) (s : Lexer) :
    Outcome fault (if s.infile.takeWhile isNameChar = []
        then (beforeNul ('?' :: s.strbuf.toList.tail)).length < 100
        else (s.infile.takeWhile isNameChar).length + 1 < 100) (fun _ => True)
      (s.put 0 '?' >>= fun s => s.scanName 1 >>= nameToken opcodes) := by
  have hput : Outcome fault (0 < 200) _ (s.put 0 '?') := put_outcome s 0 '?'
  refine (hput.bind fun s₁ _ h₁ => ?_).congr (and_iff_right (by decide))
  have hset : s.strbuf.toList.set 0 '?' = '?' :: s.strbuf.toList.tail := by
    obtain ⟨d, l, hl⟩ : ∃ d l, s.strbuf.toList = d :: l := by
      refine List.exists_cons_of_length_pos ?_
      rw [length_strbuf]
      decide
    rw [hl]
    rfl
  have hstrbuf₁ := h₁.strbuf.trans hset
  have hscan : Outcome fault _ _ (s₁.scanName 1) := scanName_outcome (Nat.le_refl 1) s₁
  rw [h₁.infile, hstrbuf₁] at hscan
  by_cases hnil : s.infile.takeWhile isNameChar = []
  · rw [if_pos hnil]
    rw [hnil, if_pos rfl] at hscan
    refine (hscan.bind fun s₂ _ hstrbuf => ?_).congr (and_iff_right (absurd rfl))
    have htoken : Outcome fault (s₂.string.length < 100) (fun _ => True) (nameToken opcodes s₂) :=
      nameToken_outcome opcodes s₂
    rw [string_eq, hstrbuf] at htoken
    exact htoken
  · rw [if_neg hnil]
    rw [if_neg hnil] at hscan
    refine (hscan.bind fun s₂ hfits hstrbuf => ?_).congr (p := _ ∧ _) (and_iff_right_of_imp ?_)
    · have hstring : s₂.string = '?' :: s.infile.takeWhile isNameChar := by
        rw [string_eq, hstrbuf]
        refine beforeNul_append ?_ _
        rintro (_ | ⟨_, hmem⟩)
        exact nul_not_mem_name _ hmem
      have htoken : Outcome fault (s₂.string.length < 100) (fun _ => True) (nameToken opcodes s₂) :=
        nameToken_outcome opcodes s₂
      rw [hstring] at htoken
      exact htoken
    · intro h _
      omega

theorem length_decimal (v : BitVec 32) : (decimal v).length ≤ 11 := by
  have hlt : v.toInt.natAbs < 10 ^ 10 := by
    have := v.toInt_lt
    have := v.le_toInt
    omega
  have hdigits : (Nat.toDigits 10 v.toInt.natAbs).length ≤ 10 :=
    (Nat.length_toDigits_le_iff (by decide) (by decide)).mpr hlt
  unfold decimal
  dsimp only
  split
  · rw [List.length_cons]
    omega
  · omega

theorem toNat_digit (hc : Doscan.isdigit c = true) : 48 ≤ c.toNat ∧ c.toNat ≤ 57 := by
  rw [Doscan.isdigit, Bool.and_eq_true, decide_eq_true_eq, decide_eq_true_eq] at hc
  exact hc

theorem has_digit (hc : Doscan.isdigit c = true) :
    Doscan.initialTable.has Doscan.SPC c = false := by
  obtain ⟨hlo, hhi⟩ := toNat_digit hc
  have hbyte : (Doscan.byteOf c).toNat = c.toNat := by
    rw [Doscan.byteOf, BitVec.toNat_ofNat]
    omega
  have hblank : ¬ (Doscan.byteOf c = 0x20 ∨ 9 ≤ Doscan.byteOf c ∧ Doscan.byteOf c ≤ 13) := by
    rw [BitVec.toNat_eq, BitVec.le_def, BitVec.le_def, hbyte]
    have h20 : (0x20 : BitVec 8).toNat = 32 := rfl
    have h13 : (13 : BitVec 8).toNat = 13 := rfl
    omega
  rw [Doscan.Table.has, Doscan.initialTable, if_neg hblank]
  rfl

/-- The array of `fscanf` is large enough for the number. -/
theorem number_fits_iff (hc : Doscan.isdigit c = true) (text : List Char) :
    (∃ r, Doscan.innumLow Doscan.initialTable 'i' Doscan.defaultWidth .regular true (c :: text) =
        .ok r) ↔
      ∀ p, Doscan.IsNumber 'i' Doscan.defaultWidth p → p <+: c :: text → p.length < 64 := by
  obtain ⟨hlo, hhi⟩ := toNat_digit hc
  have hminus : c ≠ '-' := by
    rintro rfl
    exact absurd hlo (by decide)
  have hplus : c ≠ '+' := by
    rintro rfl
    exact absurd hlo (by decide)
  have hline : Doscan.behindBlanks Doscan.initialTable (c :: text) = c :: text := by
    rw [Doscan.behindBlanks, List.dropWhile_cons_of_neg (by rw [has_digit hc]; decide)]
  have hsign : Doscan.signOf (c :: text) = [] := by
    rw [Doscan.signOf, List.head?_cons, if_neg]
    simp [hminus, hplus]
  have hstored : Doscan.signStored (c :: text) = 0 := by
    rw [Doscan.signStored, List.head?_cons, if_neg]
    simp [hminus]
  rw [Doscan.innumLow_fits_iff]
  dsimp only
  rw [hline, hsign, hstored, List.length_nil, List.drop_zero, Int.toNat_natCast, Nat.sub_zero]
  refine forall_congr' fun p => forall_congr' fun _ => forall_congr' fun _ => ?_
  rw [if_pos rfl]
  omega

theorem number_outcome (hc : Doscan.isdigit c = true) (s : Lexer) :
    Outcome fault
      (∀ p, Doscan.IsNumber 'i' Doscan.defaultWidth p → p <+: c :: s.infile → p.length < 64)
      (fun _ => True) (numberToken { s with infile := c :: s.infile }) := by
  have hfits := number_fits_iff hc s.infile
  unfold numberToken
  dsimp only
  cases hscan : Doscan.innumLow Doscan.initialTable 'i' Doscan.defaultWidth .regular true
      (c :: s.infile) with
  | error e =>
      rw [hscan] at hfits
      exact Outcome.stop (mt hfits.mpr nofun)
  | ok r =>
      rw [hscan] at hfits
      dsimp only
      refine ((setToken_outcome _ _).bind fun s' _ _ => Outcome.pure trivial).congr ?_
      refine iff_of_true ⟨?_, trivial⟩ (hfits.mp ⟨r, rfl⟩)
      exact Nat.lt_of_le_of_lt (length_decimal _) (by decide)

theorem quote_step {fuel : ℕ} {chars : Option (List Char)} {text' : List Char} {d : Char}
    (hrest : ∀ s₁ : Lexer, s₁.infile = text' → i + 1 ≤ 200 →
      Outcome fault (∃ l, chars = some l ∧ i + 1 + l.length ≤ 200)
        (fun r => ∃ l, chars = some l ∧ r.1 = i + 1 + l.length ∧
          r.2.strbuf.toList = s₁.strbuf.toList.take (i + 1) ++ l ++
            s₁.strbuf.toList.drop (i + 1 + l.length))
        (quoteLoop quote fuel (i + 1) s₁)) (s : Lexer) :
    Outcome fault (∃ l, chars.map (d :: ·) = some l ∧ i + l.length ≤ 200)
      (fun r => ∃ l, chars.map (d :: ·) = some l ∧ r.1 = i + l.length ∧
        r.2.strbuf.toList = s.strbuf.toList.take i ++ l ++ s.strbuf.toList.drop (i + l.length))
      (Lexer.put { s with infile := text' } i d >>= quoteLoop quote fuel (i + 1)) := by
  have hput : Outcome fault (i < 200) _ (Lexer.put { s with infile := text' } i d) :=
    put_outcome _ i d
  refine ((hput.bind fun s₁ hlt h₁ => (hrest s₁ h₁.infile hlt).mono ?_)).congr ?_
  · rintro r ⟨l, hl, hlength, hstrbuf⟩
    refine ⟨d :: l, by rw [hl, Option.map_some], by rw [hlength, List.length_cons]; omega, ?_⟩
    rw [hstrbuf, h₁.strbuf]
    exact set_take_drop (by rw [length_strbuf]; exact hlt) d l
  · constructor
    · rintro ⟨-, l, hl, hle⟩
      exact ⟨d :: l, by rw [hl, Option.map_some], by rw [List.length_cons]; omega⟩
    · rintro ⟨l, hl, hle⟩
      obtain ⟨l', hl', rfl⟩ := Option.map_eq_some_iff.mp hl
      rw [List.length_cons] at hle
      exact ⟨by omega, l', hl', by omega⟩

/-- A string comes to its end in time, or is stored behind the end of `strbuf`. -/
theorem quoteLoop_outcome (hi : i ≤ 200) (hfuel : fault .unfinished → 200 - i < fuel) (s : Lexer) :
    Outcome fault (∃ l, closed quote s.infile = some l ∧ i + l.length ≤ 200)
      (fun r => ∃ l, closed quote s.infile = some l ∧ r.1 = i + l.length ∧
        r.2.strbuf.toList = s.strbuf.toList.take i ++ l ++ s.strbuf.toList.drop (i + l.length))
      (quoteLoop quote fuel i s) := by
  induction fuel generalizing i s with
  | zero =>
      rw [quoteLoop]
      exact Outcome.other fun h => absurd (hfuel h) (Nat.not_lt_zero _)
  | succ fuel ih =>
      have hnext (text : List Char) (s₁ : Lexer) (h₁ : s₁.infile = text) (hle : i + 1 ≤ 200) :
          Outcome fault (∃ l, closed quote text = some l ∧ i + 1 + l.length ≤ 200)
            (fun r => ∃ l, closed quote text = some l ∧ r.1 = i + 1 + l.length ∧
              r.2.strbuf.toList = s₁.strbuf.toList.take (i + 1) ++ l ++
                s₁.strbuf.toList.drop (i + 1 + l.length))
            (quoteLoop quote fuel (i + 1) s₁) := by
        rw [← h₁]
        refine ih hle (fun h => ?_) s₁
        have := hfuel h
        omega
      rw [quoteLoop.eq_def]
      dsimp only
      cases htext : s.infile with
      | nil =>
          -- At the end of the file no quote comes any more.
          have hsame : { s with infile := [] } = s := by rw [← htext]
          have hstep := quote_step (d := eofChar) (hnext []) s
          rw [hsame] at hstep
          exact hstep
      | cons c text =>
          dsimp only
          rw [closed.eq_def]
          dsimp only
          by_cases hquote : c = quote
          · rw [if_pos hquote, if_pos hquote]
            refine (Outcome.pure ⟨[], rfl, rfl, ?_⟩).congr (iff_of_true trivial ⟨[], rfl, hi⟩)
            simp
          · rw [if_neg hquote, if_neg hquote]
            by_cases hback : c = '\\'
            · rw [if_pos hback, if_pos hback]
              cases text with
              | nil => exact quote_step (d := eofChar) (hnext []) s
              | cons d text => exact quote_step (hnext text) s
            · rw [if_neg hback, if_neg hback]
              exact quote_step (hnext text) s

/-- At the end of the file the loop goes on up to the end of `strbuf` and behind it. -/
theorem quoteLoop_eof (hi : i ≤ 200) (hfuel : 200 - i < fuel) (hinfile : s.infile = []) :
    quoteLoop quote fuel i s = .error .outside := by
  induction fuel generalizing i s with
  | zero => exact absurd hfuel (Nat.not_lt_zero _)
  | succ fuel ih =>
      rw [quoteLoop.eq_def]
      dsimp only
      rw [hinfile]
      dsimp only
      by_cases hlt : i < 200
      · rw [Lexer.put, dif_pos hlt]
        exact ih hlt (by omega) hinfile
      · rw [Lexer.put, dif_neg hlt]
        rfl

theorem skipLine_nil (fuel : ℕ) : skipLine fuel [] = .error .unfinished := by
  induction fuel with
  | zero => rfl
  | succ fuel ih =>
      rw [skipLine, List.head?_nil, if_neg (by simp), List.tail_nil]
      exact ih

theorem skipLine_outcome (hfuel : fault .unfinished → text.length < fuel) :
    Outcome fault ('\n' ∈ text) (fun _ => True) (skipLine fuel text) := by
  induction fuel generalizing text with
  | zero =>
      rw [skipLine]
      exact Outcome.other fun h => absurd (hfuel h) (Nat.not_lt_zero _)
  | succ fuel ih =>
      rw [skipLine]
      cases text with
      | nil =>
          rw [← skipLine, skipLine_nil]
          exact Outcome.stop List.not_mem_nil
      | cons c text =>
          by_cases hc : c = '\n'
          · rw [hc, List.head?_cons, if_pos rfl]
            exact (Outcome.pure trivial).congr (by simp)
          · rw [List.head?_cons, if_neg (by simpa using hc), List.tail_cons]
            refine (ih fun h => ?_).congr ?_
            · have := hfuel h
              rw [List.length_cons] at this
              omega
            · simp [Ne.symm hc]

theorem string_outcome (hfuel : fault .unfinished → 200 < fuel) (s : Lexer) :
    Outcome fault (∃ chars, closed quote s.infile = some chars ∧ chars.length ≤ 200 ∧
        (beforeNul (chars ++ s.strbuf.toList.drop chars.length)).length < 100)
      (fun _ => True) (stringToken quote fuel s) := by
  unfold stringToken
  have hloop : Outcome fault _ _ (quoteLoop quote fuel 0 s) :=
    quoteLoop_outcome (Nat.zero_le 200) hfuel s
  cases hclosed : closed quote s.infile with
  | none =>
      rw [hclosed] at hloop
      refine (hloop.bind (q := False) fun r hl _ => ?_).congr ?_
      · obtain ⟨_, hl, _⟩ := hl
        cases hl
      · simp
  | some chars =>
      rw [hclosed] at hloop
      refine (hloop.bind
        (q := (beforeNul (chars ++ s.strbuf.toList.drop chars.length)).length < 100)
        fun r hl hr => ?_).congr ?_
      · obtain ⟨i, s'⟩ := r
        obtain ⟨l, hsome, hi, hstrbuf⟩ := hr
        obtain rfl := Option.some.inj hsome
        have hstring : s'.string = beforeNul (chars ++ s.strbuf.toList.drop chars.length) := by
          rw [string_eq, hstrbuf, List.take_zero, List.nil_append, Nat.zero_add]
        have htoken : Outcome fault (s'.string.length < 100) _ (s'.setToken s'.string) :=
          setToken_outcome _ _
        rw [← hstring]
        refine (htoken.bind fun s₂ _ _ => ?_).congr (and_iff_left trivial)
        dsimp only
        split <;> exact Outcome.pure trivial
      · simp

theorem newline_outcome (s : Lexer) : Outcome fault True (fun _ => True) (newline s) := by
  have htoken : Outcome fault (['N', 'L'].length < 100) _ (s.setToken ['N', 'L']) :=
    setToken_outcome _ s
  exact (htoken.bind fun _ _ _ => Outcome.pure trivial).congr (by simp)

/-- The rounds that are enough for the loops of a token. -/
def rounds (text : List Char) : ℕ := 200 + text.length

theorem lexToken_outcome (opcodes : Opcodes) (hfuel : fault .unfinished → rounds s.infile < fuel) :
    Outcome fault (TokenFits s.strbuf.toList (c :: s.infile)) (fun _ => True)
      (lexToken opcodes fuel c s) := by
  have hquote (h : fault .unfinished) : 200 < fuel := by
    have := hfuel h
    rw [rounds] at this
    omega
  have hline (h : fault .unfinished) : s.infile.length < fuel := by
    have := hfuel h
    rw [rounds] at this
    omega
  unfold lexToken TokenFits
  dsimp only
  by_cases hlocal : c = '?'
  · rw [if_pos hlocal, if_pos hlocal, hlocal]
    exact local_outcome opcodes s
  rw [if_neg hlocal, if_neg hlocal]
  by_cases hname : isNameStart c = true
  · rw [if_pos hname, if_pos hname]
    exact name_outcome opcodes hname s
  rw [if_neg hname, if_neg hname]
  by_cases hdigit : Doscan.isdigit c = true
  · rw [if_pos hdigit, if_pos hdigit]
    exact number_outcome hdigit s
  rw [if_neg hdigit, if_neg hdigit]
  by_cases hoperator : c ∈ ['>', '<', '!', '&', '|', '=']
  · have hstring : ¬ (c = '"' ∨ c = '\'') := by
      rintro (rfl | rfl) <;> exact absurd hoperator (by decide)
    have hcomment : c ≠ ';' := by
      rintro rfl
      exact absurd hoperator (by decide)
    rw [if_pos hoperator, if_neg hstring]
    exact (Outcome.pure trivial).congr (iff_of_true trivial fun h => absurd h hcomment)
  rw [if_neg hoperator]
  by_cases hstring : c = '"' ∨ c = '\''
  · rw [if_pos hstring, if_pos hstring]
    exact string_outcome hquote s
  rw [if_neg hstring, if_neg hstring]
  by_cases hcomment : c = ';'
  · rw [if_pos hcomment]
    have hskip : Outcome fault ('\n' ∈ s.infile) _ (skipLine fuel s.infile) :=
      skipLine_outcome hline
    refine (hskip.bind fun text _ _ => newline_outcome { s with infile := text }).congr ?_
    exact ⟨fun h _ => h.1, fun h => ⟨h hcomment, trivial⟩⟩
  rw [if_neg hcomment]
  refine Outcome.congr (p := True) ?_ (iff_of_true trivial fun h => absurd h hcomment)
  by_cases hnewline : c = '\n'
  · rw [if_pos hnewline]
    exact newline_outcome s
  · rw [if_neg hnewline]
    have htoken : Outcome fault (['<', c, '>'].length < 100) _ (s.setToken ['<', c, '>']) :=
      setToken_outcome _ s
    exact (htoken.bind fun _ _ _ => Outcome.pure trivial).congr (by simp)

theorem lexToken_file (opcodes : Opcodes) {s' : Lexer}
    (hfuel : fault .unfinished → rounds (c :: text) < fuel) (hinfile : s'.infile = text)
    (hstrbuf : s'.strbuf = s.strbuf) :
    Outcome fault (TokenFits s.strbuf.toList (c :: text)) (fun _ => True)
      (lexToken opcodes fuel c s') := by
  rw [← hinfile, ← hstrbuf]
  refine lexToken_outcome opcodes fun h => ?_
  have := hfuel h
  rw [← hinfile, rounds, List.length_cons] at this
  rw [rounds]
  omega

theorem lexFiles_outcome (opcodes : Opcodes) (stack : List FileStack) (s : Lexer)
    (hfuel : fault .unfinished → rounds (current s.infile stack) < fuel) :
    Outcome fault (TokenFits s.strbuf.toList (current s.infile stack)) (fun _ => True)
      (lexFiles opcodes fuel stack s) := by
  induction stack generalizing s with
  | nil =>
      rw [lexFiles]
      rw [current] at hfuel ⊢
      cases htext : s.infile.dropWhile isBlank with
      | nil => exact Outcome.pure trivial
      | cons c text =>
          rw [htext] at hfuel
          exact lexToken_file opcodes hfuel rfl rfl
  | cons top prev ih =>
      rw [lexFiles]
      rw [current] at hfuel ⊢
      cases htext : s.infile.dropWhile isBlank with
      | nil =>
          rw [htext] at hfuel
          let place : Place := ⟨top.place.filename, top.place.lineno + 1⟩
          exact ih { s with infile := top.f, asm := { s.asm with place := place } } hfuel
      | cons c text =>
          rw [htext] at hfuel
          exact lexToken_file opcodes hfuel rfl rfl

/-- More fuel changes nothing. -/
theorem skipLine_mono {fuel' : ℕ} {rest : List Char} (hle : fuel ≤ fuel')
    (h : skipLine fuel text = .ok rest) : skipLine fuel' text = .ok rest := by
  induction fuel generalizing text fuel' with
  | zero => cases h
  | succ fuel ih =>
      obtain ⟨n, rfl⟩ : ∃ n, fuel' = n + 1 := ⟨fuel' - 1, by omega⟩
      rw [skipLine] at h ⊢
      split
      · next hline =>
        rw [if_pos hline] at h
        exact h
      · next hline =>
        rw [if_neg hline] at h
        exact ih (by omega) h

theorem quoteLoop_mono {fuel' : ℕ} {r : ℕ × Lexer} (hle : fuel ≤ fuel')
    (h : quoteLoop quote fuel i s = .ok r) : quoteLoop quote fuel' i s = .ok r := by
  induction fuel generalizing i s fuel' with
  | zero => cases h
  | succ fuel ih =>
      obtain ⟨n, rfl⟩ : ∃ n, fuel' = n + 1 := ⟨fuel' - 1, by omega⟩
      have hstep (x : Except Stop Lexer) (hx : (x >>= quoteLoop quote fuel (i + 1)) = .ok r) :
          (x >>= quoteLoop quote n (i + 1)) = .ok r := by
        cases x with
        | error e => cases hx
        | ok s₁ => exact ih (by omega) hx
      rw [quoteLoop.eq_def] at h ⊢
      dsimp only at h ⊢
      cases htext : s.infile with
      | nil =>
          rw [htext] at h
          exact hstep _ h
      | cons c text =>
          rw [htext] at h
          dsimp only at h ⊢
          by_cases hquote : c = quote
          · rw [if_pos hquote] at h ⊢
            exact h
          · rw [if_neg hquote] at h ⊢
            by_cases hback : c = '\\'
            · rw [if_pos hback] at h ⊢
              exact hstep _ h
            · rw [if_neg hback] at h ⊢
              exact hstep _ h

theorem lexToken_mono {fuel' : ℕ} {r : Token × Lexer} (hle : fuel ≤ fuel')
    (h : lexToken opcodes fuel c s = .ok r) : lexToken opcodes fuel' c s = .ok r := by
  unfold lexToken at h ⊢
  split_ifs at h ⊢ with _ _ _ _ hstring hcomment
  all_goals try exact h
  · unfold stringToken at h ⊢
    cases hloop : quoteLoop c fuel 0 s with
    | error e =>
        rw [hloop] at h
        cases h
    | ok q =>
        rw [hloop] at h
        rw [quoteLoop_mono hle hloop]
        exact h
  · cases hskip : skipLine fuel s.infile with
    | error e =>
        rw [hskip] at h
        cases h
    | ok text =>
        rw [hskip] at h
        rw [skipLine_mono hle hskip]
        exact h

theorem lexFiles_mono {fuel' : ℕ} {r : Token × Lexer} {stack : List FileStack} (hle : fuel ≤ fuel')
    (h : lexFiles opcodes fuel stack s = .ok r) : lexFiles opcodes fuel' stack s = .ok r := by
  induction stack generalizing s with
  | nil =>
      rw [lexFiles] at h ⊢
      split at h
      · exact h
      · exact lexToken_mono hle h
  | cons top prev ih =>
      rw [lexFiles] at h ⊢
      split at h
      · exact ih h
      · exact lexToken_mono hle h

theorem Returns.unique {s₁ s₂ : Lexer} (h₁ : Returns opcodes s s₁) (h₂ : Returns opcodes s s₂) :
    s₁ = s₂ := by
  obtain ⟨fuel₁, token₁, h₁⟩ := h₁
  obtain ⟨fuel₂, token₂, h₂⟩ := h₂
  have hleft := lexFiles_mono (Nat.le_max_left fuel₁ fuel₂) h₁
  have hright := lexFiles_mono (Nat.le_max_right fuel₁ fuel₂) h₂
  rw [hleft] at hright
  exact (Prod.mk.inj (Except.ok.inj hright)).2

theorem returns_iff (opcodes : Opcodes) (s : Lexer) : (∃ s', Returns opcodes s s') ↔ Fits s := by
  have hcall (fuel : ℕ) : Outcome (fun e => e = Stop.unfinished →
      rounds (current s.infile s.fileStack) < fuel) (Fits s) (fun _ => True)
      (yylex1 opcodes fuel s) :=
    lexFiles_outcome opcodes s.fileStack s fun h => h rfl
  constructor
  · rintro ⟨s', fuel, token, h⟩
    exact ((hcall fuel).ok _ h).1
  · intro hfits
    let fuel := rounds (current s.infile s.fileStack) + 1
    cases h : yylex1 opcodes fuel s with
    | error e => exact absurd hfits ((hcall fuel).error e h fun _ => Nat.lt_succ_self _)
    | ok r => exact ⟨r.2, fuel, r.1, h⟩

end

/-- In every run the calls return, with all their stores in the arrays, exactly if the token
fits that comes next at each of them. -/
theorem all_return_iff (opcodes : Opcodes) (moves : List (Lexer → Lexer)) (s : Lexer) :
    AllReturn opcodes moves s ↔ AllFit opcodes moves s := by
  induction moves generalizing s with
  | nil => exact Iff.rfl
  | cons parse moves ih =>
      rw [AllReturn, AllFit, ← returns_iff opcodes]
      constructor
      · rintro ⟨s', hreturns, hrest⟩
        refine ⟨⟨s', hreturns⟩, fun s'' h => ?_⟩
        rw [h.unique hreturns]
        exact (ih s').mp hrest
      · rintro ⟨⟨s', hreturns⟩, hrest⟩
        exact ⟨s', hreturns, (ih s').mpr (hrest s' hreturns)⟩

/-- The state before the first call. -/
def startLexer (infile : List Char) : Lexer :=
  ⟨infile, [], emptyAsm, Vector.replicate 200 '\x00', 0, [], .i 0⟩

/-- A comment is read for ever at the end of the file, and a string is stored up to the end of
`strbuf` and behind it. -/
theorem comment_at_eof :
    (¬ ∃ s', Returns (fun _ => none) (startLexer [';']) s') ∧
      yylex1 (fun _ => none) 300 (startLexer ['"']) = .error .outside := by
  constructor
  · rw [returns_iff]
    intro hfits
    exact absurd (hfits rfl) List.not_mem_nil
  · have hloop (s : Lexer) (h : s.infile = []) : quoteLoop '"' 300 0 s = .error .outside :=
      quoteLoop_eof (Nat.zero_le 200) (by decide) h
    show stringToken '"' 300 _ = _
    rw [stringToken, hloop _ rfl]
    rfl

end DjgppLibc.Djasm
