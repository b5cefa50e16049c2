import OsPi.Proc.Tally

/-!
# Runs of Calls on Descriptors

The holders of an entry of the open file table are counted over the table of processes and the
running calls. Every call of the kernel keeps the counts of entries equal to them if it meets its
condition, and so does every run of such calls.
-/

open Std.Do

namespace OsPi

open Comp List Option

set_option mvcgen.warning false

variable (env : Env)

/-! ### The kernel -/

namespace Procs

variable {ps : Procs} {fds : Fds} {pid kfd : ℕ}

/-- The number of slots that hold an entry, over all processes. -/
def slots (ps : Procs) (kfd : ℕ) : ℕ := (ps.table.map fun p => (p.getD []).held kfd).sum

/-- The number of running calls that have taken a reference to an entry. -/
def pinned (ps : Procs) (kfd : ℕ) : ℕ := ps.pins.countP fun p => p.kfd = kfd

/-- The holders of an entry. -/
def holders (ps : Procs) (kfd : ℕ) : ℕ := ps.slots kfd + ps.pinned kfd

theorem slots_setFds {p : Option Fds} (h : ps.table[pid]? = some p) (p' : Option Fds) (k : ℕ) :
    (ps.setFds pid p').slots k + (p.getD []).held k = ps.slots k + (p'.getD []).held k := by
  obtain ⟨hlt, hget⟩ := List.getElem?_eq_some_iff.mp h
  have hsplit : ps.table = ps.table.take pid ++ p :: ps.table.drop (pid + 1) := by
    rw [← hget, ← drop_eq_getElem_cons hlt, take_append_drop]
  rw [slots, slots, setFds, set_eq_take_append_cons_drop, if_pos hlt]
  conv_rhs => rw [hsplit]
  simp only [map_append, map_cons, sum_append, List.sum_cons]
  omega

theorem holders_setFds {p : Option Fds} (h : ps.table[pid]? = some p) (p' : Option Fds) (k : ℕ) :
    (ps.setFds pid p').holders k + (p.getD []).held k = ps.holders k + (p'.getD []).held k := by
  have hslots := slots_setFds h p' k
  have hpinned : (ps.setFds pid p').pinned k = ps.pinned k := rfl
  rw [holders, holders, hpinned]
  omega

theorem getElem?_of_fds (h : ps.fds? pid = some fds) : ps.table[pid]? = some (some fds) :=
  join_eq_some_iff.mp h

theorem held_le_holders (h : ps.fds? pid = some fds) (k : ℕ) : fds.held k ≤ ps.holders k := by
  have hset := holders_setFds (getElem?_of_fds h) none k
  rw [getD_some, getD_none, Fds.held_nil] at hset
  omega

theorem setFds_self (h : ps.fds? pid = some fds) : ps.setFds pid (some fds) = ps := by
  obtain ⟨hlt, hget⟩ := List.getElem?_eq_some_iff.mp (getElem?_of_fds h)
  rw [setFds, ← hget, set_getElem_self]

theorem holders_pin (ps : Procs) (p : Pin) (k : ℕ) :
    holders { ps with pins := p :: ps.pins } k = ps.holders k + if k = p.kfd then 1 else 0 := by
  have hslots : slots { ps with pins := p :: ps.pins } k = ps.slots k := rfl
  rw [holders, hslots, holders, pinned, pinned, countP_cons]
  simp only [decide_eq_true_eq, eq_comm (a := k)]
  omega

theorem holders_unpin {p : Pin} (hmem : p ∈ ps.pins) (k : ℕ) :
    ps.holders k = holders { ps with pins := ps.pins.erase p } k + if k = p.kfd then 1 else 0 := by
  have hperm : (ps.pins).Perm (p :: ps.pins.erase p) := perm_cons_erase hmem
  have hcount : ps.holders k = holders { ps with pins := p :: ps.pins.erase p } k := by
    have hslots : slots { ps with pins := p :: ps.pins.erase p } k = ps.slots k := rfl
    rw [holders, holders, hslots, pinned, pinned, hperm.countP_eq]
  rw [hcount]
  exact holders_pin { ps with pins := ps.pins.erase p } p k

end Procs

/-- What is kept between the calls of the kernel: the references to inodes and those to entries of
the open file table are accounted for. -/
structure KernelCounted (env : Env) (k : Procs × Fs) : Prop where
  accounted : k.2.Accounted env
  tallied : k.2.Tallied k.1.holders

/-- The calls after which the references are still accounted for. -/
def KCall.Clean (env : Env) (k : Procs × Fs) : KCall → Prop
  | .close pid fd => ∀ fds kfd, k.1.fds? pid = some fds → fds.slot fd = some kfd →
      k.2.Closes env kfd
  | .dup2 pid oldfd newfd => ∀ fds kfd, k.1.fds? pid = some fds → 0 ≤ newfd →
      fds.slot oldfd = some kfd → k.2.Duplicates env kfd (fds.slot newfd)
  | .fork pid outcome => ∀ fds, k.1.fds? pid = some fds → none ∈ k.1.table →
      outcome = .created → Fs.SharesAll env fds k.2
  | .pin pid fd => ∀ fds kfd, k.1.fds? pid = some fds → fds.slot fd = some kfd → k.2.Room kfd
  | .destroy pid noMemory => ∀ fds, k.1.fds? pid = some fds → (noMemory → fds = []) →
      Fs.ClosesAll env fds k.2 ∧ ∀ p ∈ k.1.pins, p.pid ≠ pid
  | _ => True

section Kernel

variable {env} {k k' : Procs × Fs} {r : Except Err Unit} {pid : ℕ} {fds : Fds}

theorem asProcess_eval {α : Type} {m : ProcM α} (h : k.1.fds? pid = some fds) :
    (asProcess pid m).eval k = ((m.eval (fds, k.2)).1,
      (k.1.setFds pid (some (m.eval (fds, k.2)).2.1), (m.eval (fds, k.2)).2.2)) := by
  simp only [asProcess, eval, ExceptT.run_mk, StateT.run, h]

theorem asProcess_eval_none {α : Type} {m : ProcM α} (h : k.1.fds? pid = none) :
    (asProcess pid m).eval k = (.error .pidNotFound, k) := by
  simp only [asProcess, eval, ExceptT.run_mk, StateT.run, h]

theorem KernelCounted.settles {fds' : Fds} {s : Fs} (h : KernelCounted env k)
    (hp : k.1.fds? pid = some fds) (hs : Settles env (fds, k.2) (fds', s)) :
    KernelCounted env (k.1.setFds pid (some fds'), s) := by
  refine ⟨hs.ledger [] h.accounted, ?_⟩
  have hle := Procs.held_le_holders hp
  have hset := Procs.holders_setFds (Procs.getElem?_of_fds hp) (some fds')
  have hrest : k.1.holders = fun j => fds.held j + (k.1.holders j - fds.held j) :=
    funext fun j => (Nat.add_sub_cancel' (hle j)).symm
  have hrest' : (k.1.setFds pid (some fds')).holders =
      fun j => fds'.held j + (k.1.holders j - fds.held j) := funext fun j => by
    have hj := hset j
    have hlej := hle j
    rw [getD_some, getD_some] at hj
    omega
  have ht := h.tallied
  rw [hrest] at ht
  rw [hrest']
  exact hs.tallied _ ht

theorem KernelCounted.asProcess {α : Type} {m : ProcM α} {r : Except Err α}
    (h : KernelCounted env k)
    (hm : ∀ fds, k.1.fds? pid = some fds → Settled env m (fds, k.2))
    (heval : (asProcess pid m).eval k = (r, k')) (hr : ∀ e, r = .error e → ¬e.fatal) :
    KernelCounted env k' := by
  cases hp : k.1.fds? pid with
  | none =>
    rw [asProcess_eval_none hp] at heval
    cases heval
    exact h
  | some fds =>
    have hspec := eval_of_triple (hm fds hp)
    rw [asProcess_eval hp] at heval
    rcases hres : m.eval (fds, k.2) with ⟨r', fds', s⟩
    rw [hres] at hspec heval
    cases heval
    cases r' with
    | ok a => exact h.settles hp hspec
    | error e => exact h.settles hp (hspec.resolve_left (hr e rfl))

theorem onFs_eval_pair {σ α : Type} (m : FsM α) (x : σ) (s : Fs) :
    (onFs m : Comp (σ × Fs) Err α).eval (x, s) = ((m.eval s).1, (x, (m.eval s).2)) := rfl

theorem Procs.getElem?_unused {ps : Procs} (h : ps.unused ≠ ps.table.length) :
    ps.table[ps.unused]? = some none := by
  have hlt : ps.unused < ps.table.length := lt_of_le_of_ne findIdx_le_length h
  have hfind := findIdx_getElem (p := fun p : Option Fds => p.isNone) (w := hlt)
  rw [getElem?_eq_getElem hlt]
  exact congrArg some (isNone_iff_eq_none.mp hfind)

theorem KernelCounted.forkInto {child : ℕ} {outcome : ForkOutcome}
    (h : KernelCounted env k) (hfree : k.1.table[child]? = some none)
    (hheld : ∀ kfd, fds.held kfd ≤ k.1.holders kfd)
    (hall : outcome = .created → Fs.SharesAll env fds k.2)
    (heval : (forkInto env fds child outcome).eval k = (r, k')) (hr : ∀ e, r = .error e → ¬e.fatal) :
    KernelCounted env k' := by
  have hholders : ∀ fds', (k.1.setFds child (some fds')).holders =
      fun j => k.1.holders j + fds'.held j := fun fds' => funext fun j =>
    Procs.holders_setFds hfree (some fds') j
  cases outcome with
  | left =>
    cases heval
    refine ⟨h.accounted, ?_⟩
    rw [hholders]
    exact h.tallied
  | destroyed =>
    cases heval
    exact h
  | created =>
    rcases hadd : (Proc.addReferences env fds).eval k.2 with ⟨r', s⟩
    rw [OsPi.forkInto, eval_modify_bind, onFs_eval_pair, hadd] at heval
    cases heval
    obtain ⟨htallied, hledger⟩ := addReferences_tallied h.tallied
      (fun kfd hpos => Nat.lt_of_lt_of_le hpos (hheld kfd)) (hall rfl) hadd hr
    refine ⟨hledger [] h.accounted, ?_⟩
    rw [hholders]
    exact htallied

theorem KernelCounted.fork {outcome : ForkOutcome}
    (h : KernelCounted env k) (hclean : (KCall.fork pid outcome).Clean env k)
    (heval : (fork env pid outcome).eval k = (r, k')) (hr : ∀ e, r = .error e → ¬e.fatal) :
    KernelCounted env k' := by
  rw [OsPi.fork, eval_get_bind] at heval
  cases hp : k.1.fds? pid with
  | none =>
    simp only [hp, eval_throw, Prod.mk.injEq] at heval
    obtain ⟨-, rfl⟩ := heval
    exact h
  | some fds =>
    simp only [hp, eval_ite] at heval
    split_ifs at heval with hfull
    · cases heval
      exact h
    · have hfree := Procs.getElem?_unused hfull
      exact h.forkInto hfree (Procs.held_le_holders hp)
        (hclean fds hp (mem_of_getElem? hfree)) heval hr

theorem Procs.holders_destroy {ps : Procs} (hp : ps.fds? pid = some fds)
    (hpins : ∀ p ∈ ps.pins, p.pid ≠ pid) :
    ps.holders = fun j => Procs.holders
      { ps.setFds pid none with pins := ps.pins.filter fun p => p.pid ≠ pid } j + fds.held j := by
  have hkeep : ps.pins.filter (fun p => p.pid ≠ pid) = ps.pins :=
    filter_eq_self.mpr fun p hmem => decide_eq_true (hpins p hmem)
  funext j
  have hset := holders_setFds (getElem?_of_fds hp) none j
  rw [getD_some, getD_none, Fds.held_nil] at hset
  rw [hkeep]
  exact hset.symm

theorem KernelCounted.destroy {noMemory : Bool}
    (h : KernelCounted env k) (hclean : (KCall.destroy pid noMemory).Clean env k)
    (heval : (procDestroy env pid noMemory).eval k = (r, k')) (hr : ∀ e, r = .error e → ¬e.fatal) :
    KernelCounted env k' := by
  rw [procDestroy, eval_get_bind] at heval
  cases hp : k.1.fds? pid with
  | none =>
    simp only [hp, eval_pure, Prod.mk.injEq] at heval
    obtain ⟨-, rfl⟩ := heval
    exact h
  | some fds =>
    simp only [hp, eval_ite] at heval
    split_ifs at heval with hmem
    · cases heval
      exact h
    · obtain ⟨hall, hpins⟩ := hclean fds hp fun hno => by
        by_contra hne
        exact hmem ⟨hno, hne⟩
      rcases hclose : (Proc.closeAll env fds).eval k.2 with ⟨r', s⟩
      rw [eval_modify_bind, onFs_eval_pair, hclose] at heval
      cases heval
      have ht := h.tallied
      rw [Procs.holders_destroy hp hpins] at ht
      obtain ⟨htallied, hledger⟩ := closeAll_tallied ht hall hclose hr
      exact ⟨hledger [] h.accounted, htallied⟩

theorem IoCall.run_kept (env : Env) (kfd : ℕ) (io : IoCall) (s : Fs) :
    Balanced (Fs.Kept env) ((io.on kfd).run env) s := by
  cases io
  all_goals
    mvcgen [IoCall.on, FsCall.run]
    all_goals grind -lia -ring -linarith

theorem KernelCounted.pin {fd : ℤ} (h : KernelCounted env k)
    (hclean : (KCall.pin pid fd).Clean env k)
    (heval : ((KCall.pin pid fd).run env).eval k = (r, k')) : KernelCounted env k' := by
  rw [KCall.run, eval_bind] at heval
  cases hp : k.1.fds? pid with
  | none =>
    rw [asProcess_eval_none hp] at heval
    cases heval
    exact h
  | some fds =>
    have hspec := eval_of_triple (pin_spec env (fds, k.2) fd)
    have hsame : k.1.setFds pid (some fds) = k.1 := Procs.setFds_self hp
    rw [asProcess_eval hp] at heval
    rcases hres : (Proc.pin fd).eval (fds, k.2) with ⟨e | kfd, fds', s⟩
    all_goals rw [hres] at hspec heval
    · obtain ⟨rfl, rfl⟩ := Prod.mk.inj hspec
      cases heval
      rw [hsame]
      exact h
    · obtain ⟨hslot, rfl, hshared⟩ := hspec
      cases heval
      have hpos : 0 < k.1.holders kfd :=
        Nat.lt_of_lt_of_le (Fds.held_pos hslot) (Procs.held_le_holders hp kfd)
      rw [hsame]
      exact ⟨hshared.ledger [] h.accounted, h.tallied.shared hshared hpos (hclean _ _ hp hslot)
        fun j => Procs.holders_pin k.1 ⟨pid, kfd⟩ j⟩

theorem KernelCounted.work {p : Pin} {io : IoCall} (h : KernelCounted env k)
    (heval : ((KCall.work p io).run env).eval k = (r, k')) (hr : ∀ e, r = .error e → ¬e.fatal) :
    KernelCounted env k' := by
  rw [KCall.run, eval_get_bind] at heval
  simp only [eval_ite] at heval
  split_ifs at heval with hmem
  · have hspec := eval_of_triple (io.run_kept env p.kfd k.2)
    rcases hrun : ((io.on p.kfd).run env).eval k.2 with ⟨r', s⟩
    have hpair : k = (k.1, k.2) := rfl
    rw [hpair, onFs_eval_pair, hrun] at heval
    rw [hrun] at hspec
    cases heval
    cases r' with
    | ok _ => exact ⟨hspec.ledger [] h.accounted, h.tallied.kept hspec⟩
    | error e =>
      have hkept := hspec.resolve_left (hr e rfl)
      exact ⟨hkept.ledger [] h.accounted, h.tallied.kept hkept⟩
  · cases heval
    exact h

theorem KernelCounted.unpin {p : Pin} (h : KernelCounted env k)
    (heval : ((KCall.unpin p).run env).eval k = (r, k')) : KernelCounted env k' := by
  rw [KCall.run, eval_get_bind] at heval
  simp only [eval_ite] at heval
  split_ifs at heval with hmem
  · have hspec := eval_of_triple (oftCloseFile_spec env k.2 p.kfd)
    rw [eval_modify_bind, eval_bind] at heval
    rcases hclose : (oftCloseFile env p.kfd).eval k.2 with ⟨r', s⟩
    rw [hclose] at hspec
    have honFs : (onFs (oftCloseFile env p.kfd)).eval
        ({ k.1 with pins := k.1.pins.erase p }, k.2) =
        (r', ({ k.1 with pins := k.1.pins.erase p }, s)) := by
      rw [onFs_eval_pair, hclose]
    have hclosed : k.2.Closed env p.kfd s ∧ k' = ({ k.1 with pins := k.1.pins.erase p }, s) := by
      cases r' with
      | ok u =>
        rw [tryErr_eval_ok honFs] at heval
        cases heval
        exact ⟨hspec, rfl⟩
      | error e =>
        refine ⟨hspec.1, ?_⟩
        rw [tryErr_eval_error honFs] at heval
        cases hf : e.fatal
        all_goals
          rw [hf] at heval
          cases heval
          rfl
    obtain ⟨hclosed, rfl⟩ := hclosed
    exact ⟨hclosed.ledger [] h.accounted,
      h.tallied.closed hclosed fun j => Procs.holders_unpin hmem j⟩
  · cases heval
    exact h

/-- What one call keeps. -/
theorem KernelCounted.run {call : KCall} (h : KernelCounted env k)
    (hclean : call.Clean env k) (heval : (call.run env).eval k = (r, k'))
    (hr : ∀ e, r = .error e → ¬e.fatal) : KernelCounted env k' := by
  cases call with
  | openPath pid fname mode =>
    refine h.asProcess (fun fds _ => ?_) heval hr
    have hopen := openPath_settled env (fds, k.2) fname mode
    mvcgen [hopen]
  | close pid fd =>
    exact h.asProcess (fun fds hp => close_settled env (fds, k.2) fd
      fun kfd hslot => hclean fds kfd hp hslot) heval hr
  | dup2 pid oldfd newfd =>
    exact h.asProcess (fun fds hp => dup2_settled env (fds, k.2) oldfd newfd
      fun h0 kfd hslot => hclean fds kfd hp h0 hslot) heval hr
  | fork pid outcome => exact h.fork hclean heval hr
  | pipe pid =>
    refine h.asProcess (fun fds _ => ?_) heval hr
    have hpipe := pipe_settled env (fds, k.2) h.accounted
    mvcgen [hpipe]
  | pin pid fd => exact h.pin hclean heval
  | work p io => exact h.work heval hr
  | unpin p => exact h.unpin heval
  | destroy pid noMemory => exact h.destroy hclean heval hr

end Kernel

/-! ### Runs -/

/-- A step of the kernel: a call, whatever it returns. After a fatal error there is no next
state. -/
def KStep (allowed : Env → Procs × Fs → KCall → Prop) (k k' : Procs × Fs) : Prop :=
  ∃ env call r, env.Numbered ∧ allowed env k call ∧ (KCall.run env call).eval k = (r, k') ∧
    ∀ e, r = .error e → ¬e.fatal

/-- Processes before anything is opened. -/
structure Procs.Fresh (ps : Procs) : Prop where
  table : ∀ fds, some fds ∈ ps.table → fds = []
  pins : ps.pins = []

/-- **The promise of the open file table**: the count of an entry is the number of its holders, and
a place of the table is taken exactly when there are any. -/
structure OftCounted (k : Procs × Fs) : Prop where
  refs : ∀ (kfd : ℕ) (e : OftEntry), k.2.oft[kfd]? = some (some e) →
    e.refCount.toNat = k.1.holders kfd
  occupied : ∀ kfd : ℕ, (∃ e, k.2.oft[kfd]? = some (some e)) ↔ 0 < k.1.holders kfd

section Runs

variable {env} {k k' : Procs × Fs}

theorem Fs.Tallied.oftCounted (h : k.2.Tallied k.1.holders) : OftCounted k where
  refs kfd e he := (h.refCount he).1
  occupied kfd := by
    constructor
    · rintro ⟨e, he⟩
      exact (h.refCount he).2
    · exact h.entry

theorem Procs.Fresh.holders_eq_zero {ps : Procs} (h : ps.Fresh) (kfd : ℕ) :
    ps.holders kfd = 0 := by
  have hslots : ps.slots kfd = 0 := by
    refine sum_eq_zero fun n hn => ?_
    obtain ⟨p, hp, rfl⟩ := List.mem_map.mp hn
    cases p with
    | none => rfl
    | some fds => rw [h.table fds hp, getD_some, Fds.held_nil]
  rw [holders, hslots, pinned, h.pins]
  rfl

theorem KernelCounted.start (hps : k.1.Fresh) (hfs : k.2.Idle) (he : env.Numbered) :
    KernelCounted env k := by
  refine ⟨hfs.accounted he, fun kfd => ?_⟩
  rw [hps.holders_eq_zero kfd, Fs.entryRefs, hfs.oft]
  exact ⟨by decide, rfl⟩

theorem KernelCounted.step (h : KernelCounted env k) (he : env.Numbered)
    (hstep : KStep KCall.Clean k k') : KernelCounted env k' := by
  obtain ⟨env', call, r, he', hclean, heval, hr⟩ := hstep
  have hrun := KernelCounted.run ⟨h.accounted.congr he he', h.tallied⟩ hclean heval hr
  exact ⟨hrun.accounted.congr he' he, hrun.tallied⟩

end Runs

/-! ### Runs in calm environments -/

/-- The state after the given calls, in calm environments. -/
def afterCalls (k : Procs × Fs) : List KCall → Procs × Fs
  | [] => k
  | call :: rest => afterCalls ((call.run .calm).eval k).2 rest

/-- Whether none of the given calls ends in a fatal error, in calm environments. -/
def survives (k : Procs × Fs) : List KCall → Bool
  | [] => true
  | call :: rest =>
    match (call.run .calm).eval k with
    | (.ok _, k') => survives k' rest
    | (.error e, k') => !e.fatal && survives k' rest

theorem reaches_afterCalls {allowed : Env → Procs × Fs → KCall → Prop} {calls : List KCall}
    {k : Procs × Fs} (hall : ∀ k, ∀ call ∈ calls, allowed .calm k call) (h : survives k calls) :
    Relation.ReflTransGen (KStep allowed) k (afterCalls k calls) := by
  induction calls generalizing k with
  | nil => exact .refl
  | cons call rest ih =>
    rw [survives] at h
    rw [afterCalls]
    have hrest := fun k c hc => hall k c (mem_cons_of_mem call hc)
    rcases heval : (call.run .calm).eval k with ⟨r, k'⟩
    rw [heval] at h
    have hstep : (∀ e, r = .error e → ¬e.fatal) → KStep allowed k k' := fun hr =>
      ⟨.calm, call, r, Env.calm_numbered, hall k call (mem_cons_self ..), heval, hr⟩
    cases r with
    | error e =>
      simp only [Bool.and_eq_true, Bool.not_eq_true'] at h
      refine .head (hstep fun e' he' => ?_) (ih hrest h.2)
      cases he'
      rw [h.1]
      exact Bool.false_ne_true
    | ok a => exact .head (hstep fun _ he => by cases he) (ih hrest h)

/-- A process on a small volume. -/
def oneProcess : Procs × Fs := (⟨[some [], none], []⟩, Fs.small)

theorem oneProcess_fresh : oneProcess.1.Fresh := by
  refine ⟨fun fds hfds => ?_, rfl⟩
  rcases mem_pair.mp hfds with h | h
  · exact some.inj h
  · cases h

/-! ### The promise -/

/-- **References to open files are counted** after every run of calls that meet the condition, by
any number of processes, whatever the calls return. -/
theorem open_file_references_counted {k₀ k : Procs × Fs} (hps : k₀.1.Fresh) (hfs : k₀.2.Idle)
    (hrun : Relation.ReflTransGen (KStep KCall.Clean) k₀ k) : OftCounted k := by
  have h : KernelCounted .calm k := by
    induction hrun with
    | refl => exact .start hps hfs Env.calm_numbered
    | tail _ hstep ih => exact ih.step Env.calm_numbered hstep
  exact h.tallied.oftCounted

/-- A file is opened and a pipe made. -/
theorem open_file_references_counted_pipe :
    (afterCalls oneProcess [.openPath 0 (str "f") (oCreat ||| oWronly), .pipe 0]).1.holders 2 = 1 ∧
      OftCounted (afterCalls oneProcess [.openPath 0 (str "f") (oCreat ||| oWronly), .pipe 0]) := by
  refine ⟨by decide +kernel, open_file_references_counted oneProcess_fresh Fs.small_idle
    (reaches_afterCalls (fun k call hcall => ?_) (by decide +kernel))⟩
  rcases mem_pair.mp hcall with rfl | rfl <;> exact trivial

/-- A `write` of 1024 bytes to a pipe. -/
def writeCalls : List KCall :=
  [.pin 0 1, .work ⟨0, 1⟩ (.writePipe (List.replicate 1024 97)), .unpin ⟨0, 1⟩]

/-- A pipe is filled, and then its only writer is closed. -/
def fullPipeCalls : List KCall :=
  [.pipe 0] ++ writeCalls ++ writeCalls ++ writeCalls ++ writeCalls ++ [.close 0 1]

/-- The descriptor is gone, and the entry keeps its reference. -/
theorem close_of_full_pipe_leaks : oneProcess.1.Fresh ∧ oneProcess.2.Idle ∧
    Relation.ReflTransGen (KStep fun _ _ _ => True) oneProcess (afterCalls oneProcess fullPipeCalls) ∧
      (afterCalls oneProcess fullPipeCalls).1.holders 1 = 0 ∧
      (afterCalls oneProcess fullPipeCalls).2.entryRefs 1 = some 1 ∧
      ¬OftCounted (afterCalls oneProcess fullPipeCalls) := by
  have hstate : (afterCalls oneProcess fullPipeCalls).1.holders 1 = 0 ∧
      (afterCalls oneProcess fullPipeCalls).2.entryRefs 1 = some 1 := by decide +kernel
  refine ⟨oneProcess_fresh, Fs.small_idle,
    reaches_afterCalls (fun _ _ _ => trivial) (by decide +kernel), hstate.1, hstate.2,
    fun hcounted => ?_⟩
  obtain ⟨e, he, -⟩ := map_eq_some_iff.mp hstate.2
  have hpos := (hcounted.occupied 1).mp ⟨e, join_eq_some_iff.mp he⟩
  rw [hstate.1] at hpos
  exact absurd hpos (Nat.lt_irrefl 0)

end OsPi
