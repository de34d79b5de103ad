import DjgppLibc.DjtarBlocks

/-!
# The name of a member

In a ustar header the name can be in two parts. `tarread` copies the whole field of the prefix
and puts a slash and the name behind it, but reads all this as one string: a prefix that does
not fill its field ends it.
-/
namespace DjgppLibc.Djtar

/-- `get_new_name` is asked for this path: for a header alone nothing else that it answers
matters, whatever the options and the other files are. -/
def AsksFor (header : List Byte) (path : Name) : Prop :=
  ∀ (env env' : Env) (opts : Options) (st : Tar), st.lookingForHeader = true → st.skipping = 0 →
    env'.openFile = env.openFile → env'.write = env.write →
    env'.newName st.events path = env.newName st.events path →
    tarread env' opts st header = tarread env opts st header

variable {env env' : Env} {opts : Options} {st : Tar} {header : List Byte} {path : Name}

/-- A header alone in a buffer. -/
theorem tarread_header (hlength : header.length = 512) (hlook : st.lookingForHeader = true)
    (hskip : st.skipping = 0) :
    tarread env opts st header =
      match headerBlock env opts { st with batch := false } header with
      | .undefined => none
      | .eof st => some (true, st)
      | .next st => some (false, st) := by
  have hblocks : ∀ b ∈ [header], b.length = 512 := by
    intro b hb
    rw [List.mem_singleton.mp hb]
    exact hlength
  have hread : tarread env opts st [header].flatten =
      runBlocks env opts { st with batch := false } [header] :=
    tarread_eq hblocks (aligned_of_not_skipping hskip)
  rw [List.flatten_singleton] at hread
  rw [hread, runBlocks, blockStep, if_neg (not_not.mpr hskip), if_pos hlook]
  rfl

theorem headerBlock_congr (hopen : env'.openFile = env.openFile)
    (hnew : env'.newName st.events (memberName header) =
      env.newName st.events (memberName header)) :
    headerBlock env' opts st header = headerBlock env opts st header := by
  have hmember (st : Tar) (written : Bool) :
      openMember env' opts st header written = openMember env opts st header written := by
    rw [openMember, openMember, hopen]
  have hread : readHeader env' opts st header = readHeader env opts st header := by
    unfold readHeader
    simp only [hnew, hmember]
  rw [headerBlock, headerBlock, hread]

/-- Every name is a directory of this name. -/
def answering (name : List Event → Name → Name) : Env :=
  ⟨fun l path => (name l path ++ [0x2f], true), fun _ path => (path, true), fun _ _ => none⟩

def takingOptions : Options := ⟨false, true, false, false, false, false⟩

/-- The directory that is made tells what was answered. -/
theorem tarread_answering (hlength : header.length = 512) (hnamed : header.headD 0 ≠ 0)
    (name : List Event → Name → Name) :
    (tarread (answering name) takingOptions startTar header).map (fun r => r.2.events) =
      some [.directory (name [] (memberName header))] := by
  have hfile : ¬ (isPaxHeader header && takingOptions.sSwitch) = true := by
    simp [takingOptions]
  rw [tarread_header hlength rfl rfl, headerBlock, readHeader, if_neg hfile, if_neg hnamed]
  simp [takingOptions, answering, openMember, startTar, Tar.emit]

theorem asksFor_iff (hlength : header.length = 512) (hnamed : header.headD 0 ≠ 0) :
    AsksFor header path ↔ path = memberName header := by
  constructor
  · intro hasks
    by_contra hother
    let marked : List Event → Name → Name := fun _ name => if name = path then [] else [0x61]
    have hsame := hasks (answering fun _ _ => []) (answering marked) takingOptions startTar
      rfl rfl rfl rfl (by simp [answering, marked])
    have hevents := congrArg (Option.map fun r => r.2.events) hsame
    rw [tarread_answering hlength hnamed, tarread_answering hlength hnamed] at hevents
    simp [marked, Ne.symm hother] at hevents
  · rintro rfl env env' opts st hlook hskip hopen - hnew
    have hhead : headerBlock env' opts { st with batch := false } header =
        headerBlock env opts { st with batch := false } header := headerBlock_congr hopen hnew
    rw [tarread_header hlength hlook hskip, tarread_header hlength hlook hskip, hhead]

theorem cstr_append {l l' : List Byte} (h : 0 ∉ l) : cstr (l ++ l') = l ++ cstr l' := by
  refine List.takeWhile_append_of_pos ?_
  intro c hc
  refine decide_eq_true ?_
  rintro rfl
  exact h hc

theorem cstr_eq_self {l : List Byte} (h : 0 ∉ l) : cstr l = l := by
  have happend : cstr (l ++ []) = l ++ cstr [] := cstr_append h
  rw [List.append_nil] at happend
  rw [happend]
  exact List.append_nil l

theorem cstr_append_of_mem {l l' : List Byte} (h : 0 ∈ l) : cstr (l ++ l') = cstr l := by
  induction l with
  | nil => cases h
  | cons c l ih =>
      unfold cstr at ih ⊢
      rw [List.cons_append]
      by_cases hc : c = 0
      · rw [hc]
        rfl
      · have hmem : 0 ∈ l := (List.mem_cons.mp h).resolve_left (Ne.symm hc)
        have hkept : decide (c ≠ 0) = true := decide_eq_true hc
        rw [List.takeWhile_cons, List.takeWhile_cons, if_pos hkept, if_pos hkept, ih hmem]

theorem cstr_slash_iff (l l' : List Byte) :
    cstr l ++ 0x2f :: cstr l' = cstr (l ++ 0x2f :: l') ↔ 0 ∉ l := by
  by_cases hnul : 0 ∈ l
  · rw [cstr_append_of_mem hnul]
    refine iff_of_false ?_ fun h => h hnul
    intro heq
    have hlen := congrArg List.length heq
    rw [List.length_append, List.length_cons] at hlen
    omega
  · refine iff_of_true ?_ hnul
    rw [cstr_append hnul, cstr_eq_self hnul]
    rfl

/-- `tarread` asks for the prefix, a slash and the name exactly if the prefix fills its field. -/
theorem tarread_asks_prefixed_iff (header : List Byte) (hlength : header.length = 512)
    (hustar : isUstarHeader header = true) (hpart : (header.drop 345).headD 0 ≠ 0)
    (hname : header.headD 0 ≠ 0) :
    AsksFor header (cstr (field header 345 155) ++ 0x2f :: cstr (field header 0 100)) ↔
      0 ∉ field header 345 155 := by
  have hmember : memberName header =
      cstr (field header 345 155 ++ 0x2f :: field header 0 100) := by
    rw [memberName, hustar, Bool.and_true, if_pos (decide_eq_true hpart)]
  rw [asksFor_iff hlength hname, hmember]
  exact cstr_slash_iff _ _

/-- A ustar header for the name `a` with a prefix. -/
def ustarHeader (prefixField : List Byte) : List Byte :=
  pad 257 [0x61] ++ pad 88 [0x75, 0x73, 0x74, 0x61, 0x72] ++ pad 167 prefixField

theorem tarread_asks_prefixed_iff_full :
    AsksFor (ustarHeader (List.replicate 155 0x70))
        (cstr (field (ustarHeader (List.replicate 155 0x70)) 345 155) ++
          0x2f :: cstr (field (ustarHeader (List.replicate 155 0x70)) 0 100)) ↔
      0 ∉ field (ustarHeader (List.replicate 155 0x70)) 345 155 :=
  tarread_asks_prefixed_iff _ (by decide +kernel) (by decide +kernel) (by decide +kernel)
    (by decide +kernel)

/-- For the prefix `p` and the name `a` it does not ask for `p/a`, but for `p`. -/
theorem tarread_asks_without_name :
    cstr (field (ustarHeader [0x70]) 345 155) = [0x70] ∧
      cstr (field (ustarHeader [0x70]) 0 100) = [0x61] ∧
      ¬ AsksFor (ustarHeader [0x70]) [0x70, 0x2f, 0x61] ∧ AsksFor (ustarHeader [0x70]) [0x70] := by
  have hlength : (ustarHeader [0x70]).length = 512 := by decide +kernel
  have hnamed : (ustarHeader [0x70]).headD 0 ≠ 0 := by decide +kernel
  have hmember : memberName (ustarHeader [0x70]) = [0x70] := by decide +kernel
  refine ⟨by decide +kernel, by decide +kernel, ?_, ?_⟩
  · rw [asksFor_iff hlength hnamed, hmember]
    decide
  · exact (asksFor_iff hlength hnamed).mpr hmember.symm

end DjgppLibc.Djtar
