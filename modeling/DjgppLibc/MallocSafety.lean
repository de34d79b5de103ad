import DjgppLibc.MallocRuns

/-!
# Safety of the allocator over whole runs

The three results below hold in every run whose steps are tame: the block
chains tile the sbrk groups and no diagnostic is reached; the free lists hold
exactly the marked blocks, by size, and no two neighbours are free; every store
lies inside its block. `nmalloc` lets the end block shrink to its sixteen header
bytes, while every other cut keeps room for a data word. If a region then
arrives elsewhere, the end block goes onto a free list and its `prevfree` field
is written behind it. The counterexamples run into that word.
-/
namespace DjgppLibc.NewMalloc
open ByteMemory LinkedLists

/-- The list headers at address 4096, for the runs on fixed inputs. -/
local instance sampleImage : Image := ⟨4096, sampleStart_pos, sampleStart_fits⟩

/-- `x` is reached through `next` from the base of a group. -/
def Heap.IsBlock (s : Heap) (x : ℕ) : Prop :=
  ∃ g ∈ groupsOf s.grants, ∃ l, Tiles s.get g.2 g.1 l ∧ x ∈ l

theorem Tiles.unique {F : Fields} {e a : ℕ} {l l' : List ℕ} (h : Tiles F e a l)
    (h' : Tiles F e a l') : l = l' := by
  induction h generalizing l' with
  | last h₀ _ =>
      cases h' with
      | last _ _ => rfl
      | cons hne _ _ _ => exact absurd h₀ hne
  | cons hne _ _ _ ih =>
      cases h' with
      | last h₀ _ => exact absurd h₀ hne
      | cons _ _ _ h' => rw [ih h']

variable {r : Run} {G : Layout}

/-- The blocks of the layout are the blocks in the chains. -/
theorem Run.Inv.isBlock_iff [Image] (h : r.Inv G) (x : ℕ) : r.heap.IsBlock x ↔ x ∈ G.blocks := by
  have hL := h.good.inv.legal
  constructor
  · rintro ⟨g, hg, l, hl, hx⟩
    obtain ⟨l', hl', hmem⟩ := hL.chain.tiles hL.ground hg
    rw [hl.unique hl'] at hx
    exact ((hmem x).mp hx).1
  · intro hx
    obtain ⟨g, hg, h₁, h₂, -⟩ := hL.chain.home x hx
    obtain ⟨l, hl, hmem⟩ := hL.chain.tiles hL.ground hg
    have hbig := hL.chain.big x hx
    exact ⟨g, hg, l, hl, (hmem x).mpr ⟨hx, h₁, by omega⟩⟩

/-- No call of `badcallabort` and no fouled `lastsbrk`. -/
def Event.Silent : Event → Prop
  | .badcall _ => False
  | .fouledLastsbrk => False
  | _ => True

/-- Each group is tiled by its chain, every live pointer is aligned and heads a
block with the requested bytes, live blocks are disjoint, and no diagnostic was
reached. -/
def ChainsInOrder (o : Except Heap Run) : Prop :=
  ∃ r, o = .ok r ∧ (∀ g ∈ groupsOf r.heap.grants, ∃ l, Tiles r.heap.get g.2 g.1 l) ∧
    (∀ l ∈ r.live, l.1 % 8 = 0 ∧ 16 ≤ l.1 ∧ r.heap.IsBlock (l.1 - 16) ∧
      l.2 + 16 ≤ r.heap.get .sz (l.1 - 16)) ∧
    r.live.Pairwise (fun l l' => l.1 - 16 + r.heap.get .sz (l.1 - 16) ≤ l'.1 - 16 ∨
      l'.1 - 16 + r.heap.get .sz (l'.1 - 16) ≤ l.1 - 16) ∧
    ∀ e ∈ r.heap.trace, e.Silent

theorem Run.Inv.chainsInOrder [Image] (hG : r.Inv G) : ChainsInOrder (.ok r) := by
  have hL := hG.good.inv.legal
  refine ⟨r, rfl, ?_, ?_, ?_, ?_⟩
  · intro g hg
    obtain ⟨l, hl, -⟩ := hL.chain.tiles hL.ground hg
    exact ⟨l, hl⟩
  · intro l hl
    obtain ⟨h₁, h₂, h₃⟩ := hG.live l hl
    have h₄ := hL.chain.aligned _ h₂.1
    exact ⟨by omega, h₁, (hG.isBlock_iff _).mpr h₂.1, h₃⟩
  · have hne : r.live.Pairwise fun l l' => l.1 ≠ l'.1 := List.pairwise_map.mp hG.distinct
    refine hne.imp_of_mem ?_
    intro l l' hl hl' hll
    obtain ⟨h₁, h₂, -⟩ := hG.live l hl
    obtain ⟨h₁', h₂', -⟩ := hG.live l' hl'
    rcases Nat.lt_or_ge (l.1 - 16) (l'.1 - 16) with hlt | hge
    · exact .inl (hL.chain.spaced _ h₂.1 _ h₂'.1 hlt)
    · exact .inr (hL.chain.spaced _ h₂'.1 _ h₂.1 (by omega))
  · intro e he
    have hok := hG.good.inv.clean e he
    cases e <;> first | exact hok | trivial

theorem run_chainsInOrder [Image] (mem : Mem) (cs : List (Call × Option ℕ))
    (hc : Runs.Along Run.step Allowed (Run.init mem) cs)
    (hr : Runs.Along Run.step Tame (Run.init mem) cs) :
    ChainsInOrder (Runs.exec Run.step (Run.init mem) cs) := by
  obtain ⟨r, G, hexec, hG⟩ := Run.Inv.exec hc hr
  rw [hexec]
  exact hG.chainsInOrder

theorem run_chainsInOrder_unaligned :
    ChainsInOrder (Runs.exec Run.step (Run.init fun _ => 0)
      [(.malloc 8, some 65537), (.realloc 65560 900, none), (.malloc 2000, some 200001),
        (.free 65560, none)]) :=
  run_chainsInOrder _ _ (by decide +kernel) (by decide +kernel)

/-- Two end blocks of sixteen bytes are retired, and the second link write lands
in the header of a block whose region starts behind the first. -/
def strayLinkCalls : List (Call × Option ℕ) :=
  [(.malloc 8, some 65536), (.malloc 968, none), (.malloc 8, some 131072), (.malloc 968, none),
    (.malloc 8, some 66560), (.free 66576, none)]

example : Runs.Along Run.step Allowed (Run.init fun _ => 0) (strayLinkCalls.take 2) := by
  decide +kernel

theorem strayLinkCalls_stop :
    Runs.Along Run.step Allowed (Run.init fun _ => 0) strayLinkCalls ∧
      ¬ ChainsInOrder (Runs.exec Run.step (Run.init fun _ => 0) strayLinkCalls) := by
  refine ⟨by decide +kernel, ?_⟩
  rintro ⟨r, hr, -⟩
  have hstop : (Runs.exec Run.step (Run.init fun _ => 0) strayLinkCalls).toOption.isNone =
      true := by
    decide +kernel
  rw [hr] at hstop
  exact absurd hstop (by simp [Except.toOption])

def Heap.Marked (s : Heap) (x : ℕ) : Prop := s.get .nextfree x ≠ 0 ∧ s.get .prevfree x ≠ 0

/-- The lists `fl` are the free lists of the heap: doubly linked, ended by NONE,
each block on the list of its own bucket, and exactly the marked blocks listed.
Neighbours are never both free, and the end block is on no list and has no free
neighbour below it. -/
structure Heap.Lists [Image] (s : Heap) (fl : ℕ → List ℕ) : Prop where
  linked : ∀ b, Linked (s.get .nextfree) (s.get .prevfree) NONE (fl b)
  head : ∀ b, b ≠ 0 → s.freehdrs b = (fl b).headD 0
  bucket : ∀ b, ∀ x ∈ fl b, s.IsBlock x ∧ b = size2bucket (s.get .sz x)
  marked : ∀ x, s.IsBlock x → (s.Marked x ↔ ∃ b, x ∈ fl b)
  apart : ∀ x, s.IsBlock x → s.get .next x ≠ 0 → ¬ (s.Marked x ∧ s.Marked (s.get .next x))
  below : ∀ x, s.IsBlock x → s.lastsbrk ≠ 0 → s.get .next x = s.lastsbrk → ¬ s.Marked x
  last : ∀ b, s.lastsbrk ∉ fl b

/-- The heap has well-formed free lists, and `searchfree` answers zero or a list
whose head is large enough. -/
def ListsInOrder [Image] (o : Except Heap Run) : Prop :=
  ∃ r, o = .ok r ∧ (∃ fl, r.heap.Lists fl) ∧
    ∀ szneed, szneed < 4294967296 → searchfree r.heap szneed ≠ 0 →
      searchfree r.heap szneed < nfLists ∧ r.heap.freehdrs (searchfree r.heap szneed) ≠ 0 ∧
      szneed ≤ r.heap.get .sz (r.heap.freehdrs (searchfree r.heap szneed))

/-- Each listed block is on exactly one list, that of its bucket. -/
theorem Heap.Lists.unique [Image] {s : Heap} {fl : ℕ → List ℕ} (h : s.Lists fl) {b x : ℕ}
    (hx : x ∈ fl b) : ∃! b, x ∈ fl b :=
  ⟨b, hx, fun b' hx' => ((h.bucket b' x hx').2.trans (h.bucket b x hx).2.symm)⟩

theorem Run.Inv.marked_iff [Image] (h : r.Inv G) {x : ℕ} (hx : x ∈ G.blocks) :
    r.heap.Marked x ↔ G.Listed x := by
  have hL := h.good.inv.legal
  exact ⟨fun hm => hL.marked x hx (hL.ne_zero hx) hm.1, fun hl => hL.links_ne_zero hl⟩

theorem Run.Inv.lists [Image] (h : r.Inv G) : r.heap.Lists G.free := by
  have hL := h.good.inv.legal
  have hB := h.isBlock_iff
  refine ⟨hL.lists.linked, hL.lists.head, ?_, ?_, ?_, ?_, ?_⟩
  · intro b x hx
    obtain ⟨h₁, h₂, -⟩ := hL.listed b x hx
    exact ⟨(hB x).mpr h₁, h₂⟩
  · intro x hx
    exact h.marked_iff ((hB x).mp hx)
  · rintro x hx hn ⟨h₁, h₂⟩
    have hxB := (hB x).mp hx
    rw [h.marked_iff hxB] at h₁
    rw [h.marked_iff (h.good.inv.next_mem hxB hn).1] at h₂
    exact hL.apart x hxB hn ⟨.inr h₁, .inr h₂⟩
  · intro x hx h0 hn hm
    have hxB := (hB x).mp hx
    rw [h.marked_iff hxB] at hm
    exact hL.apart x hxB (hn ▸ h0) ⟨.inr hm, .inl (hn.trans h.good.last)⟩
  · intro b hb
    exact (hL.listed b _ hb).2.2 h.good.last

theorem Run.Inv.listsInOrder [Image] (hG : r.Inv G) : ListsInOrder (.ok r) := by
  refine ⟨r, rfl, ⟨G.free, hG.lists⟩, ?_⟩
  intro szneed hlt hne
  obtain ⟨h₁, h₂, h₃⟩ := searchfree_spec hG.good.inv hlt hne
  exact ⟨h₁, hG.good.inv.legal.ne_zero (hG.good.inv.legal.listed _ _ h₂).1, h₃⟩

theorem run_listsInOrder [Image] (mem : Mem) (cs : List (Call × Option ℕ))
    (hc : Runs.Along Run.step Allowed (Run.init mem) cs)
    (hr : Runs.Along Run.step Tame (Run.init mem) cs) :
    ListsInOrder (Runs.exec Run.step (Run.init mem) cs) := by
  obtain ⟨r, G, hexec, hG⟩ := Run.Inv.exec hc hr
  rw [hexec]
  exact hG.listsInOrder

theorem run_listsInOrder_retired :
    ListsInOrder (Runs.exec Run.step (Run.init fun _ => 0)
      [(.malloc 8, some 65536), (.malloc 8, none), (.malloc 2000, some 131072),
        (.free 65552, none)]) :=
  run_listsInOrder _ _ (by decide +kernel) (by decide +kernel)

/-- The header of a region behind a retired end block clears its free mark. -/
def clearedMarkCalls : List (Call × Option ℕ) :=
  [(.malloc 8, some 65536), (.malloc 968, none), (.malloc 8, some 131072),
    (.malloc 2000, some 66560)]

example : Runs.Along Run.step Allowed (Run.init fun _ => 0) (clearedMarkCalls.take 2) := by
  decide +kernel

theorem clearedMarkCalls_unmarked :
    Runs.Along Run.step Allowed (Run.init fun _ => 0) clearedMarkCalls ∧
      ¬ ListsInOrder (Runs.exec Run.step (Run.init fun _ => 0) clearedMarkCalls) := by
  refine ⟨by decide +kernel, ?_⟩
  rintro ⟨r, hr, ⟨fl, hfl⟩, -⟩
  have hrun : ((Runs.exec Run.step (Run.init fun _ => 0) clearedMarkCalls).toOption.map fun r =>
      (r.heap.freehdrs 5, r.heap.get .prevfree 66544)) = some (66544, 0) := by
    decide +kernel
  rw [hr] at hrun
  simp only [Except.toOption, Option.map_some, Option.some.injEq, Prod.mk.injEq] at hrun
  -- the head of list 5 is listed, so it would have to be marked
  have hmem : 66544 ∈ fl 5 := by
    have hhead := hfl.head 5 (by decide)
    rw [hrun.1] at hhead
    have := headD_eq_or_mem (z := 0) (fl 5)
    rw [← hhead] at this
    exact this.resolve_left (by decide)
  exact ((hfl.marked _ (hfl.bucket 5 _ hmem).1).mpr ⟨5, hmem⟩).2 hrun.2

/-- A store inside its block; a listed block that has room for its links. -/
def Event.Inside : Event → Prop
  | .write _ off len ext => off + len ≤ ext
  | .listed _ size => minSave ≤ size
  | _ => True

instance : ∀ e : Event, Decidable e.Inside
  | .write _ _ _ _ => inferInstanceAs (Decidable (_ ≤ _))
  | .listed _ _ => inferInstanceAs (Decidable (_ ≤ _))
  | .bucket _ => .isTrue trivial
  | .split _ => .isTrue trivial
  | .badcall _ => .isTrue trivial
  | .fouledLastsbrk => .isTrue trivial

/-- The state in which a run ends; when it stops, nothing is live. -/
def endOf : Except Heap Run → Run
  | .ok r => r
  | .error s => ⟨s, []⟩

theorem run_storesInside [Image] (mem : Mem) (cs : List (Call × Option ℕ))
    (hc : Runs.Along Run.step Allowed (Run.init mem) cs)
    (hr : Runs.Along Run.step Tame (Run.init mem) cs) :
    ∀ e ∈ (endOf (Runs.exec Run.step (Run.init mem) cs)).heap.trace, e.Inside := by
  obtain ⟨r, G, hexec, hG⟩ := Run.Inv.exec hc hr
  rw [hexec]
  intro e he
  have hok := hG.good.inv.clean e he
  cases e <;> first | exact hok | trivial

theorem run_storesInside_retired :
    Runs.Along Run.step Tame (Run.init fun _ => 0)
        [(.malloc 8, some 65536), (.malloc 960, none), (.malloc 8, some 131072),
          (.realloc 65552 80, none)] ∧
      ∀ e ∈ (endOf (Runs.exec Run.step (Run.init fun _ => 0)
        [(.malloc 8, some 65536), (.malloc 960, none), (.malloc 8, some 131072),
          (.realloc 65552 80, none)])).heap.trace, e.Inside :=
  have htame := by decide +kernel
  ⟨htame, run_storesInside _ _ (by decide +kernel) htame⟩

theorem retired_header_storesOutside :
    Runs.Along Run.step Allowed (Run.init fun _ => 0)
        [(.malloc 8, some 65536), (.malloc 968, none), (.malloc 8, some 131072)] ∧
      ¬ ∀ e ∈ (endOf (Runs.exec Run.step (Run.init fun _ => 0)
        [(.malloc 8, some 65536), (.malloc 968, none), (.malloc 8, some 131072)])).heap.trace,
        e.Inside := by
  decide +kernel

def Heap.dataSize (s : Heap) (ptr : ℕ) : ℕ := s.get .sz (ptr - 16) - 16

/-- `nrealloc` returns. If it fails the heap is as before. If it succeeds the
result starts with the old data up to the smaller size, and the data of every
other live block is unchanged. -/
def ReallocKeeps [Image] (r : Run) (ans : Option ℕ) (ptr size : ℕ) : Prop :=
  ∃ s' p, nrealloc r.heap ans ptr size = .ok (s', p) ∧ (p = 0 → s' = r.heap) ∧
    (p ≠ 0 →
      (∀ i, i < min (r.heap.dataSize ptr) size → s'.mem (p + i) = r.heap.mem (ptr + i)) ∧
      ∀ l ∈ r.live, l.1 ≠ ptr → ∀ i, i < r.heap.dataSize l.1 →
        s'.mem (l.1 + i) = r.heap.mem (l.1 + i))

theorem Run.Inv.reallocKeeps [Image] (h : r.Inv G) {ans : Option ℕ} {l : ℕ × ℕ} (hl : l ∈ r.live)
    {size : ℕ} (hc : Allowed r (.realloc l.1 size, ans)) (hr : Tame r (.realloc l.1 size, ans)) :
    ReallocKeeps r ans l.1 size := by
  obtain ⟨h₁, h₂, -⟩ := h.live l hl
  obtain ⟨-, hsize, hans⟩ := hc
  obtain ⟨-, -, hle, -⟩ := roundup_atLeastOne hsize
  rcases nrealloc_spec h.good h₂ hsize hans hr with hs | ⟨s', G', m', hs, hm0, hres⟩
  · rw [Nat.sub_add_cancel h₁] at hs
    exact ⟨_, _, hs, fun _ => rfl, fun h0 => absurd rfl h0⟩
  · rw [Nat.sub_add_cancel h₁] at hs
    refine ⟨_, _, hs, fun h0 => by omega, fun _ => ⟨?_, ?_⟩⟩
    · intro i hi
      rw [Heap.dataSize] at hi
      have := hres.data i (by omega) (by omega)
      rwa [Nat.sub_add_cancel h₁] at this
    · intro l' hl' hne i hi
      obtain ⟨h₁', h₂', -⟩ := h.live l' hl'
      rw [Heap.dataSize] at hi
      exact (hres.frame _ h₂' (by omega)).2.2 _ (by omega) (by omega)

theorem run_reallocKeeps [Image] (mem : Mem) (cs : List (Call × Option ℕ))
    (hc : Runs.Along Run.step Allowed (Run.init mem) cs)
    (hr : Runs.Along Run.step Tame (Run.init mem) cs) (r : Run)
    (hexec : Runs.exec Run.step (Run.init mem) cs = .ok r) (ans : Option ℕ) (ptr n size : ℕ)
    (hl : (ptr, n) ∈ r.live) (hc' : Allowed r (.realloc ptr size, ans))
    (hr' : Tame r (.realloc ptr size, ans)) : ReallocKeeps r ans ptr size := by
  obtain ⟨r', G, hexec', hG⟩ := Run.Inv.exec hc hr
  rw [hexec] at hexec'
  obtain rfl := Except.ok.inj hexec'
  exact hG.reallocKeeps hl hc' hr'

theorem run_reallocKeeps_grown :
    ReallocKeeps (endOf (Runs.exec Run.step (Run.init fun _ => 0)
      [(.malloc 8, some 65536), (.store 65555 7, none)])) none 65552 900 :=
  run_reallocKeeps (fun _ => 0) [(.malloc 8, some 65536), (.store 65555 7, none)]
    (by decide +kernel) (by decide +kernel) _ (by rfl) none 65552 8 900 (by decide +kernel)
    (by decide +kernel) (by decide +kernel)

/-- The links of retired end blocks make a block take a retired end block of
another group for its lower neighbour; growing into it slides its data over the
block behind that end block. -/
def straySlideCalls : List (Call × Option ℕ) :=
  [(.malloc 8, some 65536), (.malloc 968, none), (.malloc 8, some 131072), (.malloc 968, none),
    (.malloc 88, some 66560), (.malloc 888, none), (.malloc 100, some 132096),
    (.store 66596 7, none)]

theorem straySlideCalls_realloc :
    Runs.Along Run.step Allowed (Run.init fun _ => 0) straySlideCalls ∧
      (66576, 88) ∈ (endOf (Runs.exec Run.step (Run.init fun _ => 0) straySlideCalls)).live ∧
      Allowed (endOf (Runs.exec Run.step (Run.init fun _ => 0) straySlideCalls))
        (.realloc 66576 104, none) ∧
      ¬ ReallocKeeps (endOf (Runs.exec Run.step (Run.init fun _ => 0) straySlideCalls)) none
        66576 104 := by
  refine ⟨by decide +kernel, by decide +kernel, by decide +kernel, ?_⟩
  generalize hr : endOf (Runs.exec Run.step (Run.init fun _ => 0) straySlideCalls) = r
  rintro ⟨s', p, hs, -, hkeep⟩
  -- the fifth byte of the last block changes from 0 to 7
  have hslid : (nrealloc r.heap none 66576 104).toOption.map (fun o => (o.1.mem 132116, o.2)) =
      some (7, 132096) := by
    rw [← hr]
    decide +kernel
  have hbefore : r.heap.mem 132116 = 0 ∧ (132112, 100) ∈ r.live ∧ 4 < r.heap.dataSize 132112 := by
    rw [← hr]
    decide +kernel
  rw [hs] at hslid
  simp only [Except.toOption, Option.map_some, Option.some.injEq, Prod.mk.injEq] at hslid
  have hsame := (hkeep (by rw [hslid.2]; decide)).2 _ hbefore.2.1 (by decide) 4 hbefore.2.2
  rw [hslid.1, hbefore.1] at hsame
  exact absurd hsame (by decide)

end DjgppLibc.NewMalloc
