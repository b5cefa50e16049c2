import OsPi.Memory.Mapping
import OsPi.Memory.RegionCalls
import OsPi.Proc.Exec

/-!
# What the Loader Keeps

The loader builds an address space and destroys it again where it returns an error. A property of
address spaces that each step of the building keeps is a `LoaderInvariant`, and the rules of this
module carry it through the loader, from `loadSegments` up to `loadAndAdopt`.

One such property is `Loading`: the pages of the new address space are its own, and those that are
mapped elsewhere have the contents they had. The regions that a program gets are those of its
program headers (`HasRegions`), whatever the property is.
-/

namespace OsPi

open Comp

/-! ### Rules for the loader -/

/-- A postcondition of a computation of the loader: `J` where it succeeds, and `E` where it
returns an error. Nothing is said where it does not return. -/
def Ends {α : Type} (J : α → Vm → Prop) (E : Vm → Prop) : Except Failure α → Vm × Fs → Prop
  | .ok a, s => J a s.1
  | .error (.err _), s => E s.1
  | .error (.stop _), _ => True

/-- A postcondition of a computation on an address space, where it returns. -/
def WhereReturns {α : Type} (J : α → Vm → Prop) : Except Stop α → Vm → Prop
  | .ok a, v => J a v
  | .error _, _ => True

/-- The sequence rule for computations on an address space. -/
theorem VmM.post_bind {α β : Type} {J : α → Vm → Prop} {K : β → Vm → Prop} {m : VmM α}
    {f : α → VmM β} {v : Vm} (hm : Post m v (WhereReturns J))
    (hf : ∀ a v', J a v' → Post (f a) v' (WhereReturns K)) : Post (m >>= f) v (WhereReturns K) :=
  hm.bind (fun _ _ _ => trivial) fun a v' ha => hf a v' ha

theorem VmM.post_and {α : Type} {J K : α → Vm → Prop} {m : VmM α} {v : Vm}
    (hJ : Post m v (WhereReturns J)) (hK : Post m v (WhereReturns K)) :
    Post m v (WhereReturns fun a v' => J a v' ∧ K a v') := by
  unfold Post at hJ hK ⊢
  generalize m.eval v = out at hJ hK ⊢
  obtain ⟨⟨why⟩ | ⟨a⟩, v'⟩ := out
  · trivial
  · exact ⟨hJ, hK⟩

theorem VmM.post_get {β : Type} {K : β → Vm → Prop} {f : Vm → VmM β} {v : Vm}
    (h : Post (f v) v (WhereReturns K)) : Post (get >>= f) v (WhereReturns K) := h

namespace LoadM

variable {α β : Type} {J : α → Vm → Prop} {K : β → Vm → Prop} {E : Vm → Prop} {s : Vm × Fs}

theorem post_err {e : Err} (h : E s.1) : Post (throw (.err e) : LoadM α) s (Ends J E) := h

theorem post_bind {m : LoadM α} {f : α → LoadM β} (hm : Post m s (Ends J E))
    (hf : ∀ a s', J a s'.1 → Post (f a) s' (Ends K E)) :
    Post (m >>= f) s (Ends K E) := by
  refine hm.bind (fun e s' he => ?_) fun a s' ha => hf a s' ha
  cases e with
  | err e => exact he
  | stop why => trivial

theorem post_check {ok : Bool} {e : Err} (I : Vm → Prop) (h : I s.1) (hE : ok = false → E s.1) :
    Post (check ok e) s (Ends (fun _ v => ok = true ∧ I v) E) := by
  cases ok with
  | true => exact ⟨rfl, h⟩
  | false => exact hE rfl

/-- A call of the file system does not touch the address space. -/
theorem post_liftFs {m : FsM α} (I : Vm → Prop) (h : I s.1) :
    Post (liftFs m) s (Ends (fun _ => I) I) := by
  change Ends _ _ ((m.eval s.2).1.mapError Failure.ofErr) (s.1, (m.eval s.2).2)
  cases (m.eval s.2).1 with
  | ok a => exact h
  | error e =>
    simp only [Except.mapError, Failure.ofErr]
    split_ifs
    · trivial
    · exact h

/-- A computation on the address space returns no errors. -/
theorem post_liftVm {m : VmM α} (h : Post m s.1 (WhereReturns J)) :
    Post (liftVm m) s (Ends J E) := by
  unfold Post at h
  change Ends _ _ ((m.eval s.1).1.mapError Failure.stop) ((m.eval s.1).2, s.2)
  generalize m.eval s.1 = out at h ⊢
  obtain ⟨⟨e⟩ | ⟨a⟩, v⟩ := out
  · trivial
  · exact h

theorem post_mono {m : LoadM α} {J' : α → Vm → Prop} {E' : Vm → Prop}
    (h : Post m s (Ends J E)) (hJ : ∀ a v, J a v → J' a v) (hE : ∀ v, E v → E' v) :
    Post m s (Ends J' E') := by
  refine h.mono fun r s' hr => ?_
  cases r with
  | ok a => exact hJ _ _ hr
  | error e =>
    cases e with
    | err e => exact hE _ hr
    | stop why => trivial

/-- The clean-up turns what holds after an error into what the callers expect. -/
theorem post_cleaningUp {m : LoadM α} {cleanup : LoadM Unit} {E' : Vm → Prop}
    (hm : Post m s (Ends J E'))
    (hc : ∀ s', E' s'.1 → Post cleanup s' (Ends (fun _ => E) E)) :
    Post (cleaningUp cleanup m) s (Ends J E) := by
  refine Post.bind (R := fun r s' => ∃ x, r = .ok x ∧ Ends J E' x s') ⟨_, rfl, hm⟩
    (fun e s' he => by simp at he) ?_
  rintro x s' ⟨_, hx, hends⟩
  cases hx
  cases x with
  | ok a => exact hends
  | error e =>
    cases e with
    | stop why => trivial
    | err e => exact post_bind (hc s' hends) fun _ s'' h => post_err h

end LoadM

/-! ### The pages of the new address space -/

/-- The pages `maps` have kept their contents, and the accounts hold. -/
def Untouched (start : ℕ) (s₀ : Pool) (maps : Multiset ℕ) (s : Pool) : Prop :=
  (∃ held, Accounted start s maps held) ∧ s₀.Same maps s

/-- While the new address space is built, its pages are its own. -/
structure Loading (start : ℕ) (s₀ : Pool) (maps : Multiset ℕ) (v : Vm) : Prop where
  accounted : ∃ held, Accounted start v.pool (v.table.pages + maps) (v.table.frames + held)
  sole : ∀ p ∈ v.table.pages, (v.table.pages + maps).count p = 1
  same : s₀.Same maps v.pool

namespace Loading

variable {start : ℕ} {s₀ : Pool} {maps : Multiset ℕ} {v : Vm}

theorem not_mem (h : Loading start s₀ maps v) {p : ℕ} (hp : p ∈ v.table.pages) : p ∉ maps := by
  intro hmaps
  have hsum := h.sole p hp
  rw [Multiset.count_add] at hsum
  have := Multiset.count_pos.mpr hp
  have := Multiset.count_pos.mpr hmaps
  omega

/-- A new page is put into a slot. -/
theorem mapNew (h : Loading start s₀ maps v) (va : ℕ) {attrs : ℕ → Pte}
    (hattrs : ∀ page, (attrs page).page = page) :
    Loading start s₀ maps { v with
      table := (ptMapNewPage v.table va attrs v.pool).table
      pool := (ptMapNewPage v.table va attrs v.pool).pool } := by
  obtain ⟨held, hacc⟩ := h.accounted
  obtain ⟨held', hacc', hsame, hfresh⟩ := ptMapNewPage_accounted va hattrs hacc
    fun old hold => h.sole _ (PageTable.mem_pages_of_walk hold)
  refine ⟨⟨held', hacc'⟩, fun p hp => ?_, h.same.trans (hsame.mono (Multiset.le_add_left _ _))⟩
  dsimp only at hp ⊢
  have hpos := Multiset.count_pos.mpr hp
  rw [Multiset.count_add]
  rcases hfresh p with hle | ⟨hle, hnot⟩
  · have hsum := h.sole p (Multiset.count_pos.mp (hpos.trans_le hle))
    rw [Multiset.count_add] at hsum
    omega
  · rw [Multiset.count_add] at hnot
    omega

/-- A page of the address space is written. -/
theorem fill (h : Loading start s₀ maps v) {page : ℕ} (hpage : page ∈ v.table.pages)
    (data : ℕ → UInt8) : Loading start s₀ maps { v with pool := v.pool.fill page data } := by
  obtain ⟨held, hacc⟩ := h.accounted
  refine ⟨⟨held, hacc.fill page data⟩, h.sole, h.same.trans fun p hp => ?_⟩
  have hne : p ≠ page := by
    rintro rfl
    exact h.not_mem hpage hp
  simp [Pool.fill_bytes, hne]

/-- The lock and the regions do not matter. -/
theorem congr {v' : Vm} (h : Loading start s₀ maps v) (htable : v'.table = v.table)
    (hpool : v'.pool = v.pool) : Loading start s₀ maps v' := by
  refine ⟨?_, ?_, ?_⟩ <;> simp only [htable, hpool]
  exacts [h.accounted, h.sole, h.same]

end Loading

/-- A new page table has no regions. -/
theorem initializeUserPageTable_regions (mem : Allocs) (v : Vm) :
    Post (initializeUserPageTable mem) v
      (WhereReturns fun made v' => made = true → v'.regions = []) := by
  unfold initializeUserPageTable
  cases halloc : v.pool.allocPage with
  | none => simp [Post, WhereReturns, eval_bind, halloc]
  | some r =>
    cases hlock : v.lock <;> cases hstruct : mem.pageTable <;> cases hvec : mem.vecNew <;>
      cases hput : mem.hashmapPut <;>
      simp [Post, WhereReturns, eval_bind, halloc, lockMetadata, unlockMetadata,
        ensurePageTable, hlock, hstruct, hvec, hput, Vm.regions]

section Steps

variable {start : ℕ} {s₀ : Pool} {maps : Multiset ℕ} {v : Vm}

theorem initializeUserPageTable_post (mem : Allocs) (h : Untouched start s₀ maps v.pool) :
    Post (initializeUserPageTable mem) v (WhereReturns fun made v' =>
      Untouched start s₀ maps v'.pool ∧ (made = true → Loading start s₀ maps v')) := by
  obtain ⟨⟨held, hacc⟩, hsame⟩ := h
  unfold initializeUserPageTable
  cases halloc : v.pool.allocPage with
  | none =>
    simp only [Post, eval_bind, eval_get, halloc]
    exact ⟨⟨⟨held, hacc⟩, hsame⟩, fun h => by simp at h⟩
  | some r =>
    obtain ⟨page, pool⟩ := r
    obtain ⟨hacc', -, hsame'⟩ := hacc.alloc halloc
    have hsame'' := hsame.trans hsame'
    have hloading : ∀ lock segments, Loading start s₀ maps
        ⟨lock, segments, v.currMmapVa, PageTree.empty page, pool⟩ := fun lock segments =>
      ⟨⟨held, by simpa using hacc'⟩, fun p hp => by simp at hp, hsame''⟩
    cases hlock : v.lock <;> cases hstruct : mem.pageTable <;> cases hvec : mem.vecNew <;>
      cases hput : mem.hashmapPut <;>
      simp [Post, WhereReturns, eval_bind, halloc, lockMetadata, unlockMetadata,
        ensurePageTable, hlock, hstruct, hvec, hput, Untouched, hloading, hsame'', Exists.intro _ hacc']

theorem destroyPageTable_post (h : Loading start s₀ maps v) :
    Post destroyPageTable v (WhereReturns fun _ v' => Untouched start s₀ maps v'.pool) := by
  obtain ⟨held, hacc⟩ := h.accounted
  obtain ⟨pool, hpool, hacc', hsame⟩ := destroyLevel_accounted v.table hacc
  unfold destroyPageTable
  cases hlock : v.lock <;>
    simp [Post, WhereReturns, eval_bind, lockMetadata, unlockMetadata, hlock, hpool,
      Untouched, h.same.trans hsame, Exists.intro _ hacc']

end Steps

/-! ### The stack of the new address space -/

/-- A property of an address space that mapping new pages and writing pages it has keeps. -/
structure KeptByBuilding (I : Vm → Prop) : Prop where
  mapNew : ∀ v va attrs, (∀ page, Pte.page (attrs page) = page) → I v →
    I { v with
      table := (ptMapNewPage v.table va attrs v.pool).table
      pool := (ptMapNewPage v.table va attrs v.pool).pool }
  fill : ∀ v page data, page ∈ v.table.pages → I v → I { v with pool := v.pool.fill page data }

namespace KeptByBuilding

variable {I : Vm → Prop} {v : Vm}

theorem seedKernelPages_post (hI : KeptByBuilding I) (vas : List ℕ) (h : I v) :
    Post (seedKernelPages vas) v (WhereReturns fun _ => I) := by
  induction vas generalizing v with
  | nil => exact h
  | cons va rest ih =>
    have hnew := hI.mapNew v va Pte.kernelRw (fun _ => rfl) h
    refine VmM.post_get ?_
    refine VmM.post_bind (J := fun _ => I) hnew fun _ v' hv' => ?_
    split
    · exact ih hv'
    · exact hv'

theorem stackPage_post (hI : KeptByBuilding I) (va : ℕ) (h : I v) :
    Post (stackPage va) v (WhereReturns fun page v' =>
      I v' ∧ ∀ p, page = some p → p ∈ v'.table.pages) := by
  refine VmM.post_get ?_
  split
  · rename_i pte hwalk
    refine ⟨h, fun p hp => ?_⟩
    obtain rfl := Option.some.inj hp
    exact PageTable.mem_pages_of_walk hwalk
  · refine VmM.post_bind (J := fun _ v' => I v' ∧
      v'.table = (ptMapNewPage v.table va Pte.userRw v.pool).table)
      ⟨hI.mapNew v va Pte.userRw (fun _ => rfl) h, rfl⟩ ?_
    rintro _ v' ⟨hv', htable⟩
    refine ⟨hv', fun p hp => ?_⟩
    split_ifs at hp
    obtain ⟨pte, hpte, rfl⟩ := Option.map_eq_some_iff.mp hp
    simp only [eval_pure, htable]
    exact PageTable.mem_pages_of_walk hpte

theorem stackWriteLoop_post (hI : KeptByBuilding I) (turns va : ℕ) (src : List UInt8) (h : I v) :
    Post (stackWriteLoop turns va src) v (WhereReturns fun _ => I) := by
  induction turns generalizing va src v with
  | zero => exact h
  | succ turns ih =>
    unfold stackWriteLoop
    split_ifs
    · exact h
    · refine VmM.post_bind (hI.stackPage_post (alignDown va) h) ?_
      rintro page v' ⟨hv', hpage⟩
      split
      · exact hv'
      · refine VmM.post_bind (J := fun _ => I) (hI.fill _ _ _ (hpage _ rfl) hv') ?_
        exact fun _ v'' hv'' => ih _ _ hv''

theorem stackWrite_post (hI : KeptByBuilding I) (va : ℕ) (src : List UInt8) (h : I v) :
    Post (stackWrite va src) v (WhereReturns fun _ => I) := by
  unfold stackWrite
  split_ifs
  · exact h
  · exact hI.stackWriteLoop_post _ _ _ h

theorem pushArgs_post (hI : KeptByBuilding I) (args : List Str) (sp : ℕ) (ptrs : List ℕ)
    (h : I v) : Post (pushArgs args sp ptrs) v (WhereReturns fun _ => I) := by
  induction args generalizing sp ptrs v with
  | nil => exact h
  | cons arg rest ih =>
    unfold pushArgs
    dsimp only
    split_ifs
    · exact h
    · refine VmM.post_bind (hI.stackWrite_post _ _ h) fun ok v' hv' => ?_
      split_ifs
      · exact ih _ _ hv'
      · exact hv'

theorem setupExecStack_post (hI : KeptByBuilding I) (args : List Str) (h : I v) :
    Post (setupExecStack args) v (WhereReturns fun _ => I) := by
  refine VmM.post_bind (hI.pushArgs_post _ _ _ h) fun out v' hv' => ?_
  split
  · exact hv'
  · dsimp only
    split_ifs
    · exact hv'
    · refine VmM.post_bind (hI.stackWrite_post _ _ hv') fun ok v'' hv'' => ?_
      split_ifs <;> exact hv''

end KeptByBuilding

/-! ### The loader -/

/-- `add_vm_region` works on the regions only. -/
theorem addVmRegion_keeps (mem : Allocs) (segment : MemSegment) :
    Keeps (fun v : Vm => (v.table, v.pool)) (addVmRegion mem segment) := by
  intro v
  have hensure : ∀ v : Vm, (((ensurePageTable mem).eval v).2.table,
      ((ensurePageTable mem).eval v).2.pool) = (v.table, v.pool) := by
    intro v
    unfold ensurePageTable
    rw [eval_get_bind]
    cases v.segments with
    | some l => rfl
    | none => cases mem.pageTable <;> cases mem.vecNew <;> cases mem.hashmapPut <;> rfl
  unfold addVmRegion lockMetadata
  cases hlock : v.lock with
  | true => simp [eval_bind, hlock]
  | false =>
    simp only [eval_bind, eval_get, hlock, Bool.false_eq_true, if_false, eval_set]
    have h := hensure { v with lock := true }
    generalize (ensurePageTable mem).eval { v with lock := true } = out at h ⊢
    obtain ⟨⟨why⟩ | ⟨⟨e⟩ | ⟨l⟩⟩, v'⟩ := out
    · exact h
    · exact h
    · cases mem.segment <;> cases hins : insertSegment l segment <;> cases mem.vecReserve <;>
        simpa [unlockMetadata, eval_bind, hins] using h

/-- `add_vm_region` works on the regions only, and where it succeeds there is one more. -/
theorem addVmRegion_post (mem : Allocs) (segment : MemSegment) (v : Vm) :
    Post (addVmRegion mem segment) v (WhereReturns fun r v' =>
      v'.table = v.table ∧ v'.pool = v.pool ∧
        (r = .ok () → v'.regions.Perm (segment :: v.regions))) := by
  have hkeeps := addVmRegion_keeps mem segment v
  unfold Post
  cases hlock : v.lock with
  | true =>
    rw [addVmRegion_of_locked hlock]
    trivial
  | false =>
    have hout := addVmRegion_outcome mem segment hlock
    generalize (addVmRegion mem segment).eval v = out at hout hkeeps ⊢
    obtain ⟨htable, hpool⟩ := Prod.ext_iff.mp hkeeps
    cases hout with
    | short => exact ⟨htable, hpool, fun h => by cases h⟩
    | stopped => trivial
    | refused => exact ⟨htable, hpool, fun h => by cases h⟩
    | added _ _ hins => exact ⟨htable, hpool, fun _ => insertSegment_perm hins⟩

/-- The properties of an address space the loader relies on: `U` while it has no page table, and
`I` while it has one. -/
structure LoaderInvariant (U I : Vm → Prop) : Prop extends KeptByBuilding I where
  congr : ∀ v v' : Vm, v'.table = v.table → v'.pool = v.pool → I v → I v'
  init : ∀ mem v, U v → Post (initializeUserPageTable mem) v
    (WhereReturns fun made v' => U v' ∧ (made = true → I v'))
  destroy : ∀ v, I v → Post destroyPageTable v (WhereReturns fun _ => U)

namespace LoaderInvariant

variable {U I : Vm → Prop} (files : FileCalls) (mem : ExecMem) {s : Vm × Fs}

theorem readExactLoop_post {P : Vm → Prop} (fd size turns total buf : ℕ) (h : P s.1) :
    Post (readExactLoop files fd size turns total buf) s (Ends (fun _ => P) P) := by
  induction turns generalizing total buf s with
  | zero => exact h
  | succ turns ih =>
    unfold readExactLoop
    split_ifs
    · exact h
    · refine LoadM.post_bind (LoadM.post_liftFs P h) fun r s' h' => ?_
      exact LoadM.post_bind (LoadM.post_check P h' fun _ => h') fun _ s'' h'' => ih _ _ h''.2

theorem readExactAt_post {P : Vm → Prop} (fd offset size : ℕ) (h : P s.1) :
    Post (readExactAt files fd offset size) s (Ends (fun _ => P) P) :=
  LoadM.post_bind (LoadM.post_liftFs P h) fun _ _ h' => readExactLoop_post files fd size size 0 0 h'

/-- The regions are those of the given program headers, in some order. -/
def HasRegions (phdrs : List Phdr) (ino : ℕ) (v : Vm) : Prop :=
  v.regions.Perm (phdrs.map fun phdr => phdr.segment ino)

theorem loadSegment_post (hI : LoaderInvariant U I) (mem : Allocs) (phdr : Phdr) (ino : ℕ)
    {before : List Phdr} (h : I s.1) (hregions : HasRegions before ino s.1) :
    Post (loadSegment mem (phdr.segment ino)) s
      (Ends (fun _ v => I v ∧ HasRegions (before ++ [phdr]) ino v) I) := by
  refine LoadM.post_bind (LoadM.post_liftVm (addVmRegion_post mem (phdr.segment ino) s.1)) ?_
  rintro r s' ⟨htable, hpool, hperm⟩
  have h' := hI.congr _ _ htable hpool h
  cases r with
  | error e => exact h'
  | ok _ =>
    refine ⟨h', ?_⟩
    have hall := (hperm rfl).trans (hregions.cons (phdr.segment ino))
    simpa [HasRegions] using hall.trans (List.perm_append_singleton _ _).symm

theorem loadSegments_post (hI : LoaderInvariant U I) (fd ino fileSize : ℕ) (header : Ehdr)
    (is : List ℕ) (before : List Phdr) (h : I s.1) (hregions : HasRegions before ino s.1) :
    Post (loadSegments files mem fd ino fileSize header is) s
      (Ends (fun phdrs v => I v ∧ HasRegions (before ++ phdrs) ino v) I) := by
  induction is generalizing before s with
  | nil =>
    unfold loadSegments
    exact ⟨h, by simpa using hregions⟩
  | cons i rest ih =>
    have hboth : I s.1 ∧ HasRegions before ino s.1 := ⟨h, hregions⟩
    refine LoadM.post_bind (LoadM.post_mono (readExactAt_post files fd _ _ hboth)
      (fun _ _ => id) fun _ => And.left) ?_
    intro bytes s₁ h₁
    dsimp only
    split_ifs
    · exact ih before h₁.1 h₁.2
    · refine LoadM.post_bind (LoadM.post_check (fun v => I v ∧ HasRegions before ino v) h₁
        fun _ => h₁.1) ?_
      rintro _ s₂ ⟨-, h₂, hregions₂⟩
      refine LoadM.post_bind (hI.loadSegment_post (mem.region i) _ ino h₂ hregions₂) ?_
      intro _ s₃ h₃
      refine LoadM.post_bind (LoadM.post_mono (LoadM.post_liftFs
        (fun v => I v ∧ HasRegions (before ++ [Phdr.ofBytes bytes]) ino v) h₃)
          (fun _ _ => id) fun _ => And.left) ?_
      rintro _ s₄ ⟨h₄, hregions₄⟩
      refine LoadM.post_bind (ih _ h₄ hregions₄) ?_
      rintro phdrs s₅ ⟨h₅, hregions₅⟩
      exact ⟨h₅, by simpa using hregions₅⟩

/-- Building an address space does not change its regions. -/
theorem withRegions (hI : KeptByBuilding I) (phdrs : List Phdr) (ino : ℕ) :
    KeptByBuilding fun v => I v ∧ HasRegions phdrs ino v :=
  ⟨fun v va attrs hattrs h => ⟨hI.mapNew v va attrs hattrs h.1, h.2⟩,
    fun v page data hpage h => ⟨hI.fill v page data hpage h.1, h.2⟩⟩

theorem buildImage_post (hI : LoaderInvariant U I) (args : List Str) (fd ino fileSize : ℕ)
    (header : Ehdr) (h : I s.1) (hregions : s.1.regions = []) :
    Post (buildImage files mem args fd ino fileSize header) s
      (Ends (fun image v => I v ∧ HasRegions image.phdrs image.ino v) I) := by
  have hP := withRegions hI.toKeptByBuilding [] ino
  have h₀ : I s.1 ∧ HasRegions [] ino s.1 := ⟨h, by simp [HasRegions, hregions]⟩
  refine LoadM.post_bind (LoadM.post_liftVm (hP.seedKernelPages_post _ h₀)) fun seeded s₁ h₁ => ?_
  refine LoadM.post_bind (LoadM.post_check (fun v => I v ∧ HasRegions [] ino v) h₁
    fun _ => h₁.1) ?_
  rintro _ s₂ ⟨-, h₂⟩
  refine LoadM.post_bind (LoadM.post_liftVm (hP.setupExecStack_post args h₂)) fun sp s₃ h₃ => ?_
  cases sp with
  | none => exact h₃.1
  | some sp =>
    refine LoadM.post_bind (hI.loadSegments_post files mem fd ino fileSize header _ [] h₃.1 h₃.2) ?_
    exact fun phdrs s₄ h₄ => h₄

theorem loadImage_post (hI : LoaderInvariant U I) (args : List Str) (fd : ℕ) (entry : OftEntry)
    (h : U s.1) :
    Post (loadImage files mem args fd entry) s
      (Ends (fun image v => I v ∧ HasRegions image.phdrs image.ino v) U) := by
  refine LoadM.post_bind (LoadM.post_liftFs U h) fun metadata s₁ h₁ => ?_
  refine LoadM.post_bind (LoadM.post_check U h₁ fun _ => h₁) fun _ s₂ h₂ => ?_
  generalize toInt32 metadata.size.toNat = fileSize
  refine LoadM.post_bind (LoadM.post_check U h₂.2 fun _ => h₂.2) fun _ s₃ h₃ => ?_
  refine LoadM.post_bind (readExactAt_post files fd 0 ehdrSize h₃.2) fun bytes s₄ h₄ => ?_
  refine LoadM.post_bind (LoadM.post_check U h₄ fun _ => h₄) fun _ s₅ h₅ => ?_
  refine LoadM.post_bind (LoadM.post_liftVm (VmM.post_and (hI.init mem.table s₅.1 h₅.2)
    (initializeUserPageTable_regions mem.table s₅.1))) fun made s₆ h₆ => ?_
  refine LoadM.post_bind (LoadM.post_check
    (fun v => (made = true → I v) ∧ (made = true → v.regions = [])) ⟨h₆.1.2, h₆.2⟩
      fun _ => h₆.1.1) fun _ s₇ h₇ => ?_
  exact LoadM.post_cleaningUp (hI.buildImage_post files mem args fd _ _ _ (h₇.2.1 h₇.1)
    (h₇.2.2 h₇.1)) fun s₈ h₈ => LoadM.post_liftVm (hI.destroy s₈.1 h₈)

theorem loadProgram_post (hI : LoaderInvariant U I) (args : List Str) (path : Str) (h : U s.1) :
    Post (loadProgram files mem args path) s
      (Ends (fun image v => I v ∧ HasRegions image.phdrs image.ino v) U) := by
  refine LoadM.post_bind (LoadM.post_liftFs U h) fun fd s₁ h₁ => ?_
  refine LoadM.post_bind (LoadM.post_liftFs U h₁) fun entry s₂ h₂ => ?_
  refine LoadM.post_bind (LoadM.post_cleaningUp (hI.loadImage_post files mem args fd entry h₂)
    fun s₃ h₃ => LoadM.post_liftFs U h₃) fun image s₃ h₃ => ?_
  exact LoadM.post_bind (LoadM.post_cleaningUp
    (LoadM.post_liftFs (fun v => I v ∧ HasRegions image.phdrs image.ino v) h₃) fun s₄ h₄ =>
      LoadM.post_liftVm (hI.destroy s₄.1 h₄.1)) fun _ s₄ h₄ => h₄

theorem copyKernelStack_post {P : Vm → Prop} (hP : KeptByBuilding P) (old : PageTable)
    (vas : List ℕ) (h : P s.1) :
    Post (copyKernelStack old vas) s (Ends (fun _ => P) P) := by
  induction vas generalizing s with
  | nil => exact h
  | cons va rest ih =>
    refine LoadM.post_bind (J := fun w v => w.1 = v ∧ P v) ⟨rfl, h⟩ ?_
    rintro ⟨v, fs⟩ s₁ ⟨rfl, h₁⟩
    dsimp only
    split
    · rename_i src dst hsrc hdst
      have hfill := hP.fill s₁.1 dst.page (s₁.1.pool.bytes src.page)
        (PageTable.mem_pages_of_walk hdst) h₁
      exact LoadM.post_bind (LoadM.post_liftVm (J := fun _ => P) hfill) fun _ s₂ h₂ => ih h₂
    · exact h₁

theorem adoptFrame_post {P : Vm → Prop} (hP : KeptByBuilding P) (old : Option PageTable)
    (frameVa : ℕ) (h : P s.1) :
    Post (adoptFrame old frameVa) s
      (Ends (fun page v => P v ∧ page ∈ v.table.pages) P) := by
  refine LoadM.post_bind (LoadM.post_check P h fun _ => h) ?_
  rintro _ s₁ ⟨-, h₁⟩
  cases old with
  | none => exact h₁
  | some old =>
    refine LoadM.post_bind (copyKernelStack_post hP old _ h₁) fun _ s₂ h₂ => ?_
    refine LoadM.post_bind (J := fun w v => w.1 = v ∧ P v) ⟨rfl, h₂⟩ ?_
    rintro ⟨v, fs⟩ s₃ ⟨rfl, h₃⟩
    dsimp only
    split
    · exact h₃
    · rename_i pte hwalk
      exact ⟨h₃, PageTable.mem_pages_of_walk hwalk⟩

/-- The whole loader: with an error nothing is left of the new address space, and otherwise its
regions are those of the program headers. -/
theorem loadAndAdopt_post (hI : LoaderInvariant U I) (args : List Str) (path : Str)
    (old : Option PageTable) (frameVa : ℕ) (h : U s.1) :
    Post (loadAndAdopt files mem args path old frameVa) s
      (Ends (fun r v => I v ∧ HasRegions r.1.phdrs r.1.ino v) U) := by
  refine LoadM.post_bind (hI.loadProgram_post files mem args path h) fun image s₁ h₁ => ?_
  have hP := withRegions hI.toKeptByBuilding image.phdrs image.ino
  exact LoadM.post_bind (LoadM.post_cleaningUp (adoptFrame_post hP old frameVa h₁)
    fun s₂ h₂ => LoadM.post_liftVm (hI.destroy s₂.1 h₂.1)) fun page s₂ h₂ => h₂.1

end LoaderInvariant

/-- The address space of the loader is accounted for, apart from what is mapped elsewhere. -/
theorem Loading.invariant (start : ℕ) (s₀ : Pool) (maps : Multiset ℕ) :
    LoaderInvariant (fun v => Untouched start s₀ maps v.pool) (Loading start s₀ maps) where
  mapNew _ va _ hattrs h := h.mapNew va hattrs
  fill _ _ data hpage h := h.fill hpage data
  congr _ _ htable hpool h := h.congr htable hpool
  init mem _ h := initializeUserPageTable_post mem h
  destroy _ h := destroyPageTable_post h

end OsPi
