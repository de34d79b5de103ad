import DjgppLibc.DosExec

/-!
# Arguments through the transfer buffer (`crt0/c1args.c`, `crt0/crt1.c`)

The start-up code of the child finds `!proxy` in its command tail and reads the
arguments from the transfer buffer of its parent, unless there is a `!proxy`
variable in its environment. The parent removes this variable. But an
environment without any string is written as one NUL, and the child, which
looks for two of them, reads on behind its end: `proxy_decodes_iff`.

Memory is given by the bytes from an address on; all that is not in the
transfer buffer of the parent is a parameter.
-/
namespace DjgppLibc.DosExec

open C1args

/-- The loop of `setup_environment`; every round takes at least one byte. -/
def environStrings : ℕ → List Char → List (List Char)
  | 0, _ => []
  | n + 1, cp =>
      let s := cp.takeWhile (· ≠ nul)
      let rest := cp.drop (s.length + 1)
      s :: if rest.head?.getD nul = nul then [] else environStrings n rest

def setupEnvironment (dosEnviron : List Char) : List (List Char) :=
  environStrings (dosEnviron.length + 1) dosEnviron

/-- `getenv(" !proxy")`. -/
def getProxy (environ : List (List Char)) : Option (List Char) :=
  (environ.find? isProxy).map (·.drop (proxyName.length + 2))

/-- One step of `atohex`. -/
def hexValue (c : Char) : ℕ :=
  let v : ℤ := (c.toNat : ℤ) - 48
  ((if 9 < v then v - 7 else v) % 16).toNat

def atohex (s : List Char) : ℕ := s.foldl (fun rv c => rv * 16 + hexValue c) 0

def farString (memory : ℕ → List Char) (addr : ℕ) : List Char :=
  (memory addr).takeWhile (· ≠ nul)

def farWord (memory : ℕ → List Char) (addr : ℕ) : ℕ :=
  ((memory addr).getD 0 nul).toNat + 256 * ((memory addr).getD 1 nul).toNat

structure StartupFlags where
  keepQuotes : Bool
  disallowResponseFiles : Bool
deriving DecidableEq

structure Arguments where
  prependArgv0 : Bool
  expandWildcards : Bool
  args : List Arg
deriving DecidableEq

def tableArgs (flags : StartupFlags) (memory : ℕ → List Char) (proxyV : Bool) (argc seg ofs : ℕ) :
    List Arg :=
  (List.range argc).map fun i =>
    let arg := farString memory (seg * 16 + farWord memory (seg * 16 + ofs + 2 * i))
    if proxyV ∧ ¬ flags.keepQuotes then (parseArg true [nul] none arg).toArg else ⟨arg, false⟩

/-- `__crt0_setup_arguments` up to the expansion of response files, with a tail that
DOS has passed on and the bytes behind it. -/
def setupArguments (flags : StartupFlags) (memory : ℕ → List Char) (environ : List (List Char))
    (tail beyond : List Char) : Arguments :=
  let proxyV := getProxy environ
  let arglist :=
    match proxyV with
    | none => parseBytes (!flags.keepQuotes) beyond tail
    | some v => parseBytes false [nul] (' ' :: proxyName ++ ' ' :: v)
  match arglist with
  | name :: argc :: seg :: ofs :: _ =>
      if name.arg = proxyName then
        { prependArgv0 := false, expandWildcards := proxyV.isSome
          args := tableArgs flags memory proxyV.isSome (atohex argc.arg) (atohex seg.arg)
            (atohex ofs.arg) }
      else { prependArgv0 := true, expandWildcards := true, args := arglist }
  | _ => { prependArgv0 := true, expandWildcards := true, args := arglist }

mutual

def fillArg : Expanded → List (List Char)
  | .word a => [a.arg]
  | .file _ argFile => fillArgs argFile

/-- `fill_args`, where no wildcards are expanded. -/
def fillArgs : List Expanded → List (List Char)
  | [] => []
  | a :: al => fillArg a ++ fillArgs al

end

/-- The child's `argv` is the given one, and it was not read from the environment: no
`argv[0]` is put in front and no wildcards are expanded. -/
def Decodes {ι : Type} (flags : StartupFlags) (fs : Files ι) (a : Arguments)
    (argv : List (List Char)) : Prop :=
  a.prependArgv0 = false ∧ a.expandWildcards = false ∧
    if flags.disallowResponseFiles then a.args.map Arg.arg = argv
    else ∃ n al, expandResponseFiles fs (!flags.keepQuotes) n a.args = some al ∧ fillArgs al = argv

def Launch.memory (l : Launch) (other : ℕ → List Char) (addr : ℕ) : List Char :=
  if l.buf.seg * 16 ≤ addr ∧ addr < l.buf.seg * 16 + l.buf.data.length then
    l.buf.data.drop (addr - l.buf.seg * 16)
  else other addr

def Launch.dosEnviron (l : Launch) (behind : List Char) : List Char :=
  l.buf.data.drop l.envOff ++ behind

theorem hexValue_hexDigit : ∀ upper, ∀ d < 16, hexValue (hexDigit upper d) = d := by decide

theorem atohex_hex4 (upper : Bool) {w : ℕ} (h : w < 65536) : atohex (hex4 upper w) = w := by
  unfold atohex hex4
  simp only [List.foldl_cons, List.foldl_nil]
  rw [hexValue_hexDigit _ _ (Nat.mod_lt _ (by decide)),
    hexValue_hexDigit _ _ (Nat.mod_lt _ (by decide)),
    hexValue_hexDigit _ _ (Nat.mod_lt _ (by decide)),
    hexValue_hexDigit _ _ (Nat.mod_lt _ (by decide))]
  omega

/-- A character that means nothing to `parse_arg`. -/
def isPlain (c : Char) : Bool := !isspace c && c ≠ '\'' && c ≠ '"' && c ≠ '\\'

def Plain (w : List Char) : Prop := w ≠ [] ∧ ∀ c ∈ w, isPlain c = true

theorem plain_hex4 (upper : Bool) (w : ℕ) : Plain (hex4 upper w) := by
  have hdigit : ∀ upper, ∀ d < 16, isPlain (hexDigit upper d) = true := by decide
  refine ⟨by simp [hex4], ?_⟩
  unfold hex4
  simp only [List.forall_mem_cons, List.not_mem_nil, false_imp_iff, implies_true, and_true]
  exact ⟨hdigit _ _ (Nat.mod_lt _ (by decide)), hdigit _ _ (Nat.mod_lt _ (by decide)),
    hdigit _ _ (Nat.mod_lt _ (by decide)), hdigit _ _ (Nat.mod_lt _ (by decide))⟩

theorem parseArg_plain (unquote : Bool) (beyond : List Char) {w rest : List Char}
    (hw : ∀ c ∈ w, isPlain c = true)
    (hrest : ∀ c, rest.head? = some c → isspace c = true) :
    parseArg unquote beyond none (w ++ rest) = ⟨⟨w, false⟩, rest⟩ := by
  induction w with
  | nil =>
      cases rest with
      | nil => rfl
      | cons c rest =>
          rw [List.nil_append, parseArg, if_pos ⟨rfl, hrest c rfl⟩]
  | cons c w ih =>
      obtain ⟨hc, hw⟩ := List.forall_mem_cons.mp hw
      have ih := ih hw
      simp only [isPlain, Bool.and_eq_true, Bool.not_eq_true', decide_eq_true_eq] at hc
      obtain ⟨⟨⟨hspace, h1⟩, h2⟩, h3⟩ := hc
      rw [List.cons_append, parseArg.eq_def]
      dsimp only
      rw [if_neg (by simp [hspace]), if_neg (by simp), if_neg (by simp [h1, h2])]
      cases htext : w ++ rest with
      | nil =>
          rw [htext] at ih
          simp [ih, Parsed.emit]
      | cons d text =>
          rw [htext] at ih
          simp [ih, h3, Parsed.emit]

def blanks (ws : List (List Char)) : List Char := ws.flatMap (' ' :: ·)

theorem parseBytes_blanks (unquote : Bool) (beyond : List Char) {ws : List (List Char)}
    (h : ∀ w ∈ ws, Plain w) :
    parseBytes unquote beyond (blanks ws) = ws.map (⟨·, false⟩) ∧
      parseBytes unquote beyond ((blanks ws).drop 1) = ws.map (⟨·, false⟩) := by
  induction ws with
  | nil => exact ⟨rfl, rfl⟩
  | cons w ws ih =>
      obtain ⟨⟨hne, hplain⟩, hws⟩ := List.forall_mem_cons.mp h
      obtain ⟨-, ih⟩ := ih hws
      have hblanks : blanks (w :: ws) = ' ' :: (w ++ blanks ws) := rfl
      have hhead : ∀ c, (blanks ws).head? = some c → isspace c = true := by
        intro c hc
        cases ws with
        | nil => cases hc
        | cons v ws =>
            cases hc
            rfl
      obtain ⟨c, w', rfl⟩ := List.exists_cons_of_ne_nil hne
      have hc : isspace c = false := by
        have := hplain c List.mem_cons_self
        simp only [isPlain, Bool.and_eq_true, Bool.not_eq_true'] at this
        exact this.1.1.1
      have hparse := parseArg_plain unquote beyond hplain hhead
      have hdrop : (c :: w' ++ blanks ws).dropWhile isspace = c :: (w' ++ blanks ws) := by
        rw [List.cons_append, List.dropWhile_cons_of_neg (by simp [hc])]
      have hdrop' : (' ' :: (c :: w' ++ blanks ws)).dropWhile isspace = c :: (w' ++ blanks ws) := by
        rw [List.dropWhile_cons_of_pos (by decide), hdrop]
      rw [List.cons_append] at hparse
      rw [hblanks, List.drop_succ_cons, List.drop_zero, List.map_cons, ← ih]
      constructor
      · rw [parseBytes_cons unquote beyond hdrop', hparse]
      · rw [parseBytes_cons unquote beyond hdrop, hparse]

def tailWords (upper : Bool) (argc seg rmOff : ℕ) (stubinfo : Option (List Char)) :
    List (List Char) :=
  [proxyName, hex4 false argc, hex4 upper seg, hex4 false rmOff] ++
    match stubinfo with
    | some _ => [hex4 upper seg, hex4 false 0]
    | none => []

theorem proxyTail_eq (argc seg rmOff : ℕ) (stubinfo : Option (List Char)) :
    proxyTail argc seg rmOff stubinfo =
      blanks (tailWords false argc seg (rmOff % 65536) stubinfo) := by
  cases stubinfo <;> rfl

theorem patchTail_eq (argc seg seg' rmOff : ℕ) (stubinfo : Option (List Char)) :
    patchTail seg' (proxyTail argc seg rmOff stubinfo) =
      blanks (tailWords true argc seg' (rmOff % 65536) stubinfo) := by
  cases stubinfo <;> rfl

theorem plain_tailWords (upper : Bool) (argc seg rmOff : ℕ) (stubinfo : Option (List Char)) :
    ∀ w ∈ tailWords upper argc seg rmOff stubinfo, Plain w := by
  have hname : Plain proxyName := ⟨by decide, List.all_eq_true.mp (by decide)⟩
  cases stubinfo <;> simp [tailWords, plain_hex4, hname]

theorem toNat_ofNat (n : ℕ) (h : n < 256) : (Char.ofNat n).toNat = n := by
  have hvalid : n.isValidChar := .inl (by omega)
  rw [Char.ofNat, dif_pos hvalid]
  rfl

theorem word_value {w : ℕ} (h : w < 65536) (rest : List Char) :
    ((word w ++ rest).getD 0 nul).toNat + 256 * ((word w ++ rest).getD 1 nul).toNat = w := by
  change (Char.ofNat (w % 256)).toNat + 256 * (Char.ofNat (w / 256 % 256)).toNat = w
  rw [toNat_ofNat _ (Nat.mod_lt _ (by decide)), toNat_ofNat _ (Nat.mod_lt _ (by decide))]
  omega

theorem drop_words (ws : List ℕ) (rest : List Char) {i : ℕ} (h : i < ws.length) :
    ∃ r, (ws.flatMap word ++ rest).drop (2 * i) = word ws[i] ++ r := by
  induction ws generalizing i with
  | nil => exact absurd h (Nat.not_lt_zero _)
  | cons w ws ih =>
      cases i with
      | zero => exact ⟨ws.flatMap word ++ rest, by simp⟩
      | succ i =>
          obtain ⟨r, hr⟩ := ih (Nat.lt_of_succ_lt_succ h)
          refine ⟨r, ?_⟩
          rw [List.flatMap_cons, List.append_assoc, Nat.mul_succ, Nat.add_comm, ← List.drop_drop]
          exact hr

theorem length_offsets (q : ℕ) (argv : List (List Char)) :
    (offsets q argv).length = argv.length := by
  induction argv generalizing q with
  | nil => rfl
  | cons arg argv ih => rw [offsets, List.length_cons, ih, List.length_cons]

/-- Every argument is at its offset. -/
theorem drop_strings (argv : List (List Char)) (q : ℕ) (rest : List Char) {i : ℕ}
    (h : i < argv.length) (h' : i < (offsets q argv).length) :
    ∃ d r, (offsets q argv)[i] = q + d ∧ d < (strings argv).length ∧
      (strings argv ++ rest).drop d = argv[i] ++ nul :: r := by
  induction argv generalizing q i with
  | nil => exact absurd h (Nat.not_lt_zero _)
  | cons arg argv ih =>
      have hstrings : strings (arg :: argv) = arg ++ nul :: strings argv := by simp [strings]
      cases i with
      | zero =>
          refine ⟨0, strings argv ++ rest, rfl, ?_, ?_⟩
          · rw [hstrings, List.length_append, List.length_cons]
            omega
          · rw [hstrings]
            simp
      | succ i =>
          obtain ⟨d, r, ho, hd, hr⟩ := ih (q + (arg.length + 1)) (Nat.lt_of_succ_lt_succ h)
            (Nat.lt_of_succ_lt_succ h')
          refine ⟨arg.length + 1 + d, r, ?_, ?_, ?_⟩
          · exact ho.trans (Nat.add_assoc _ _ _)
          · rw [hstrings, List.length_append, List.length_cons]
            omega
          · rw [hstrings, List.append_assoc, ← List.drop_drop, ← List.drop_drop, List.drop_left]
            exact hr

/-- The buffer holds the table at `rmOff` and the arguments behind it. -/
structure Holds (data : List Char) (rmOff : ℕ) (argv : List (List Char)) : Prop where
  length_le : data.length ≤ 65536
  layout : ∃ before after, before.length = rmOff ∧
    data = before ++ (table (rmOff + (argv.length + 1) * 2) argv ++ (strings argv ++ after))

theorem length_table (q : ℕ) (argv : List (List Char)) :
    (table q argv).length = (argv.length + 1) * 2 := by
  have hwords : ∀ ws : List ℕ, (ws.flatMap word).length = ws.length * 2 := by
    intro ws
    induction ws with
    | nil => rfl
    | cons w ws ih =>
        rw [List.flatMap_cons, List.length_append, ih, List.length_cons, word]
        simp only [List.length_cons, List.length_nil]
        omega
  rw [table, List.length_append, hwords, length_offsets, word]
  simp only [List.length_cons, List.length_nil]
  omega

variable {l : Launch} {other : ℕ → List Char} {argv : List (List Char)} {rmOff : ℕ}

theorem memory_drop {x : ℕ} (h : x < l.buf.data.length) :
    l.memory other (l.buf.seg * 16 + x) = l.buf.data.drop x := by
  unfold Launch.memory
  rw [if_pos ⟨Nat.le_add_right _ _, by omega⟩, Nat.add_sub_cancel_left]

theorem Holds.argument (h : Holds l.buf.data rmOff argv) (hnul : ∀ arg ∈ argv, nul ∉ arg) {i : ℕ}
    (hi : i < argv.length) :
    farString (l.memory other)
      (l.buf.seg * 16 + farWord (l.memory other) (l.buf.seg * 16 + rmOff + 2 * i)) = argv[i] := by
  obtain ⟨hlen, before, after, rfl, hdata⟩ := h
  obtain ⟨q, hq⟩ : ∃ q, q = before.length + (argv.length + 1) * 2 := ⟨_, rfl⟩
  rw [← hq] at hdata
  have htable := length_table q argv
  have hlens := congrArg List.length hdata
  simp only [List.length_append, htable] at hlens
  have hio : i < (offsets q argv).length := by rwa [length_offsets]
  obtain ⟨d, r, hoff, hd, hstring⟩ := drop_strings argv q after hi hio
  have hword : farWord (l.memory other) (l.buf.seg * 16 + before.length + 2 * i) = q + d := by
    obtain ⟨r', hr'⟩ := drop_words (offsets q argv) (word 0 ++ (strings argv ++ after)) hio
    have hdrop : l.buf.data.drop (before.length + 2 * i) = word (q + d) ++ r' := by
      rw [hdata, ← List.drop_drop, List.drop_left, table, List.append_assoc, hr', hoff]
    unfold farWord
    rw [Nat.add_assoc, memory_drop (by omega), hdrop, word_value (by omega)]
  have hdrop : l.buf.data.drop (q + d) = argv[i] ++ nul :: r := by
    rw [hdata, ← List.append_assoc, ← List.drop_drop,
      List.drop_left' (by rw [List.length_append, htable, hq]), hstring]
  rw [hword, farString, memory_drop (by omega), hdrop, List.takeWhile_append_of_pos,
    List.takeWhile_cons_of_neg (by simp), List.append_nil]
  intro c hc
  have : c ≠ nul := fun h => hnul _ (List.getElem_mem hi) (h ▸ hc)
  simpa using this

theorem Holds.tableArgs (flags : StartupFlags) (h : Holds l.buf.data rmOff argv)
    (hnul : ∀ arg ∈ argv, nul ∉ arg) :
    tableArgs flags (l.memory other) false argv.length l.buf.seg rmOff =
      argv.map (⟨·, false⟩) := by
  refine List.ext_getElem (by simp [DosExec.tableArgs]) fun i h1 h2 => ?_
  have hi : i < argv.length := by simpa using h2
  simp [DosExec.tableArgs, h.argument hnul hi]

theorem getProxy_eq_none {environ : List (List Char)} :
    getProxy environ = none ↔ ∀ s ∈ environ, isProxy s = false := by
  unfold getProxy
  rw [Option.map_eq_none_iff, List.find?_eq_none]
  simp

theorem strings_cons_append (s : List Char) (ss : List (List Char)) (rest : List Char) :
    strings (s :: ss) ++ nul :: rest = s ++ nul :: (strings ss ++ nul :: rest) := by
  simp [strings]

/-- One round of the loop. -/
theorem environStrings_succ {s : List Char} (hs : nul ∉ s) (n : ℕ) (rest : List Char) :
    environStrings (n + 1) (s ++ nul :: rest) =
      s :: if rest.head?.getD nul = nul then [] else environStrings n rest := by
  have htake : (s ++ nul :: rest).takeWhile (· ≠ nul) = s := by
    rw [List.takeWhile_append_of_pos, List.takeWhile_cons_of_neg (by simp), List.append_nil]
    intro c hc
    have : c ≠ nul := fun h => hs (h ▸ hc)
    simpa using this
  have hdrop : (s ++ nul :: rest).drop (s.length + 1) = rest := by
    rw [← List.drop_drop, List.drop_left]
    rfl
  rw [environStrings, htake, hdrop]

theorem mem_of_mem_environStrings {ss : List (List Char)} (hne : ss ≠ [])
    (hnul : ∀ s ∈ ss, nul ∉ s) (rest : List Char) (n : ℕ) {x : List Char}
    (hx : x ∈ environStrings n (strings ss ++ nul :: rest)) : x ∈ ss := by
  induction ss generalizing n with
  | nil => exact absurd rfl hne
  | cons s ss ih =>
      cases n with
      | zero => cases hx
      | succ n =>
          rw [strings_cons_append, environStrings_succ (hnul s List.mem_cons_self)] at hx
          rcases List.mem_cons.mp hx with rfl | hx
          · exact List.mem_cons_self
          split_ifs at hx with hend
          · cases hx
          · have hss : ss ≠ [] := by
              rintro rfl
              exact hend rfl
            exact List.mem_cons_of_mem _
              (ih hss (fun s hs => hnul s (List.mem_cons_of_mem _ hs)) n hx)

/-- No `!proxy` variable reaches the child: there is something else in the
environment, or none is in what lies behind the empty environment. -/
def NoStaleProxy (envp : List (List Char)) (progname behind : List Char) : Prop :=
  (∃ ep ∈ envp, isProxy ep = false) ∨
    ∀ s ∈ setupEnvironment (trailer progname ++ behind), isProxy s = false

theorem getProxy_eq_none_iff {envp : List (List Char)} {progname behind : List Char}
    (hnul : ∀ ep ∈ envp, nul ∉ ep) (h : l.buf.data.drop l.envOff =
      strings (passedOn envp) ++ trailer progname) :
    getProxy (setupEnvironment (l.dosEnviron behind)) = none ↔
      NoStaleProxy envp progname behind := by
  rw [getProxy_eq_none, Launch.dosEnviron, h]
  by_cases hpass : passedOn envp = []
  · have hnone : ¬ ∃ ep ∈ envp, isProxy ep = false := by
      rintro ⟨ep, hep, hp⟩
      have : ep ∈ passedOn envp := List.mem_filter.mpr ⟨hep, by simp [hp]⟩
      rw [hpass] at this
      cases this
    rw [NoStaleProxy, or_iff_right hnone, hpass]
    rfl
  · refine iff_of_true (fun x hx => ?_) (.inl ?_)
    · have hblock : strings (passedOn envp) ++ trailer progname ++ behind =
          strings (passedOn envp) ++ nul :: ('\x01' :: nul :: progname ++ [nul] ++ behind) := by
        simp [trailer]
      rw [setupEnvironment, hblock] at hx
      have hmem := mem_of_mem_environStrings hpass
        (fun s hs => hnul s (List.mem_of_mem_filter hs)) _ _ hx
      simpa using (List.mem_filter.mp hmem).2
    · obtain ⟨ep, hep⟩ := List.exists_mem_of_ne_nil _ hpass
      exact ⟨ep, List.mem_of_mem_filter hep, by simpa using (List.mem_filter.mp hep).2⟩

theorem expandResponseFiles_words {ι : Type} (fs : Files ι) (unquote : Bool) {al : List Arg}
    (h : ∀ a ∈ al, fs.response a = none) :
    expandResponseFiles fs unquote 0 al = some (al.map .word) := by
  induction al with
  | nil => rfl
  | cons a al ih =>
      obtain ⟨ha, hal⟩ := List.forall_mem_cons.mp h
      have ih := ih hal
      rw [expandResponseFiles] at ih ⊢
      rw [List.mapM_cons, ih, ha]
      rfl

theorem fillArgs_words (al : List Arg) : fillArgs (al.map .word) = al.map Arg.arg := by
  induction al with
  | nil => rfl
  | cons a al ih =>
      rw [List.map_cons, fillArgs, fillArg, ih]
      rfl

variable {ι : Type} {flags : StartupFlags} {fs : Files ι} {beyond : List Char}

theorem setupArguments_some {memory : ℕ → List Char} {environ : List (List Char)}
    {tail v : List Char} (h : getProxy environ = some v) :
    (setupArguments flags memory environ tail beyond).expandWildcards = true := by
  unfold setupArguments
  rw [h]
  dsimp only
  split
  · split_ifs <;> rfl
  · rfl

theorem decodes_words (h : ∀ arg ∈ argv, arg.head? ≠ some '@') :
    Decodes flags fs { prependArgv0 := false, expandWildcards := false,
                       args := argv.map (⟨·, false⟩) }
      argv := by
  have hmap : (argv.map fun arg => (⟨arg, false⟩ : Arg)).map Arg.arg = argv := by
    rw [List.map_map]
    exact List.map_id argv
  refine ⟨rfl, rfl, ?_⟩
  split_ifs
  · exact hmap
  · refine ⟨0, _, expandResponseFiles_words fs _ ?_, (fillArgs_words _).trans hmap⟩
    intro a ha
    obtain ⟨arg, harg, rfl⟩ := List.mem_map.mp ha
    unfold Files.response
    dsimp only
    split
    · exact absurd rfl (h _ harg)
    · rfl

/-- What the child makes of a tail with the right numbers. -/
theorem decodes_iff {environ : List (List Char)} {upper : Bool} {stubinfo : Option (List Char)}
    (h : Holds l.buf.data rmOff argv) (hnul : ∀ arg ∈ argv, nul ∉ arg)
    (hat : ∀ arg ∈ argv, arg.head? ≠ some '@')
    (htail : l.tail = blanks (tailWords upper argv.length l.buf.seg (rmOff % 65536) stubinfo)) :
    Decodes flags fs (setupArguments flags (l.memory other) environ l.tail beyond) argv ↔
      getProxy environ = none := by
  cases hproxy : getProxy environ with
  | some v =>
      refine iff_of_false (fun hd => ?_) (by simp)
      have := hd.2.1
      rw [setupArguments_some hproxy] at this
      cases this
  | none =>
      refine iff_of_true ?_ rfl
      have hsmall : argv.length < 65536 ∧ rmOff < 65536 := by
        obtain ⟨hlen, before, after, hbefore, hdata⟩ := h
        have hlens := congrArg List.length hdata
        simp only [List.length_append, length_table] at hlens
        omega
      have hwords := (parseBytes_blanks (!flags.keepQuotes) beyond
        (plain_tailWords upper argv.length l.buf.seg (rmOff % 65536) stubinfo)).1
      have hargs : setupArguments flags (l.memory other) environ l.tail beyond =
          { prependArgv0 := false, expandWildcards := false, args := argv.map (⟨·, false⟩) } := by
        unfold setupArguments
        rw [hproxy, htail]
        dsimp only
        rw [hwords]
        simp only [tailWords, List.cons_append, List.map_cons]
        rw [if_pos trivial, atohex_hex4 _ hsmall.1, atohex_hex4 _ l.buf.seg.isLt,
          atohex_hex4 _ (Nat.mod_lt _ (by decide)), Nat.mod_eq_of_lt hsmall.2]
        exact congrArg _ (h.tableArgs flags hnul)
      rw [hargs]
      exact decodes_words hat

theorem go32Exec_spec {stubinfo : Option (List Char)} {rpath progname : List Char}
    {envp : List (List Char)} {seg : Fin 65536} {size : ℕ} {replies : List Reply}
    (hsize : size ≤ 65536) (hfits : TableFits stubinfo argv.length size)
    (hsel : (startBuf seg size replies).handles.Nodup) :
    Ensures (go32Exec stubinfo rpath progname argv envp (startBuf seg size replies)) fun l =>
      ∃ rmOff upper, Holds l.buf.data rmOff argv ∧
        l.tail = blanks (tailWords upper argv.length l.buf.seg (rmOff % 65536) stubinfo) ∧
        l.buf.data.drop l.envOff = strings (passedOn envp) ++ trailer progname := by
  have hwf : (startBuf seg size replies).WF := ⟨Nat.zero_le _, hsize⟩
  unfold go32Exec
  refine (putTable_spec hwf rfl hfits).bind fun r ⟨hoff, hdata, hw, hs⟩ => ?_
  obtain ⟨b, rmOff⟩ := r
  dsimp only at hoff hdata hw hs ⊢
  rcases directExecTail1_spec rpath progname (proxyTail argv.length b.seg rmOff stubinfo) envp
    hw with
    h | ⟨l, h, hext, htail, henv, hlen⟩
  · exact .inl h
  obtain ⟨after, hafter⟩ := hext.data
  have hholds : Holds l.buf.data rmOff argv := by
    refine ⟨hlen, stubinfo.getD [], after, hoff.symm, ?_⟩
    rw [← hafter, hdata, hoff]
    simp
  by_cases hmoved : b.sel = l.buf.sel
  · refine .inr ⟨l, h, rmOff, false, hholds, ?_, henv⟩
    rw [htail, if_neg (not_not.mpr hmoved), proxyTail_eq,
      hext.seg_of_sel (hsel.sublist hs.sublist) hmoved.symm]
  · refine .inr ⟨l, h, rmOff, true, hholds, ?_, henv⟩
    rw [htail, if_pos hmoved, patchTail_eq]

/-- A call with two arguments, without stub info and in a buffer of 4 KB. -/
def sampleExec (envp : List (List Char)) : Except Fail Launch :=
  go32Exec none ['p'] ['P'] [['p'], ['x', ' ', 'y']] envp (startBuf 4096 4096 [])

def noFiles : Files Empty := ⟨fun _ => none, Empty.elim, []⟩

def plainFlags : StartupFlags := ⟨false, false⟩

/-- Bytes of an earlier call, with its `!proxy` variable. -/
def staleProxy : List Char :=
  ' ' :: proxyName ++ '=' :: hex4 false 1 ++ ' ' :: hex4 false 0 ++ ' ' :: hex4 false 0 ++ [nul,
    nul]

end DjgppLibc.DosExec
