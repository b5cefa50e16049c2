import OsPi.Fs.BalanceCalls
import OsPi.Fs.Calls

/-!
# Who Holds References

`Fs.Ledger env loans s` says who holds the references to the nodes of the inode cache: the entries
of the open file table, and the operation that is running, whose references are `loans`. Between
operations there are no loans, and the ledger is `Fs.Accounted`.

The rules of this file say how taking and dropping references and changing the table change the
ledger. `Fs.Booked` is what they say about a whole operation: besides the ledger, it tells what
becomes of the reference counts of the entries themselves.
-/

namespace OsPi

open Function List Option

namespace Fs

/-! ### The table -/

/-- Whether an entry of the table refers to an inode. -/
def refersTo (id : ℕ) : Option OftEntry → Bool
  | some e => e.inoId = id
  | none => false

/-- The number of entries of the table that refer to an inode. -/
def holders (s : Fs) (id : ℕ) : ℕ := s.oft.countP (refersTo id)

/-- The reference count of an entry of the table, if there is one. -/
def entryRefs (s : Fs) (fd : ℕ) : Option UInt16 := s.oft[fd]?.join.map OftEntry.refCount

/-- What a caller sees of a state besides the contents of files and the open files. -/
def rest (s : Fs) : Frame := { s.frame with oft := [] }

variable {env : Env} {s s' s'' : Fs} {id target : ℕ} {loans : List ℕ} {fd : ℕ} {e e' : OftEntry}
  {f g : (ℕ → Option UInt16) → ℕ → Option UInt16}

theorem oft_of_frame (h : s'.frame = s.frame) : s'.oft = s.oft := congrArg Frame.oft h

theorem rest_of_frame (h : s'.frame = s.frame) : s'.rest = s.rest := by rw [rest, rest, h]

@[simp] theorem refersTo_some : refersTo id (some e) = decide (e.inoId = id) := rfl

@[simp] theorem refersTo_none : refersTo id none = false := rfl

theorem holders_set_some (id : ℕ) (h : s.oft[fd]? = some (some e)) (x : Option OftEntry) :
    (s.oft.set fd x).countP (refersTo id) + (if e.inoId = id then 1 else 0) =
      s.holders id + if refersTo id x then 1 else 0 := by
  obtain ⟨hlt, he⟩ := List.getElem?_eq_some_iff.mp h
  have hpos : e.inoId = id → 0 < s.oft.countP (refersTo id) := fun hid =>
    countP_pos_iff.mpr ⟨some e, mem_of_getElem? h, by simp [hid]⟩
  rw [countP_set hlt, he, holders, refersTo_some]
  by_cases hid : e.inoId = id
  · have hcount := hpos hid
    simp only [hid, decide_true, if_true]
    omega
  · simp only [hid, decide_false, Bool.false_eq_true, if_false]
    omega

theorem holders_set_none (h : s.oft[fd]? = some none) (x : Option OftEntry) :
    (s.oft.set fd x).countP (refersTo id) = s.holders id + if refersTo id x then 1 else 0 := by
  obtain ⟨hlt, he⟩ := List.getElem?_eq_some_iff.mp h
  rw [countP_set hlt, he, holders]
  simp

/-! ### The ledger -/

/-- The references to cached inodes are those of the entries of the table and the loans of the
operation that is running. Virtual inodes are not cached; their numbers are negative as an
`int`, and those of other inodes are not. -/
structure Ledger (env : Env) (loans : List ℕ) (s : Fs) : Prop where
  counted : s.Counted
  refs : ∀ id, s.refs id = if s.isVirtual env id then 0 else s.holders id + loans.count id
  ino : ∀ (fd : ℕ) (e : OftEntry), s.oft[fd]? = some (some e) → e.inoId ≠ 0
  inodes : s.layout.inodeCapacity < 2 ^ 31
  high : ∀ id, s.isVirtual env id → 2 ^ 31 ≤ id

/-- Between operations the entries of the table hold every reference. -/
abbrev Accounted (env : Env) (s : Fs) : Prop := s.Ledger env []

theorem Ledger.of_frame {loans' : List ℕ} (hl : s.Ledger env loans) (hf : s'.frame = s.frame)
    (hc : s'.Counted) (hvirt : ∀ i, s.isVirtual env i → s'.refs i = s.refs i)
    (hrefs : ∀ i, ¬s.isVirtual env i → s'.refs i + loans.count i = s.refs i + loans'.count i) :
    s'.Ledger env loans' := by
  refine ⟨hc, fun i => ?_, fun fd e he => hl.ino fd e (by rwa [oft_of_frame hf] at he),
    layout_of_frame hf ▸ hl.inodes, fun id hv => hl.high id (by rwa [isVirtual_of_frame hf] at hv)⟩
  have hi := hl.refs i
  rw [isVirtual_of_frame hf, holders, oft_of_frame hf]
  split_ifs at hi ⊢ with hv
  · rw [hvirt i hv, hi]
  · have hsum := hrefs i hv
    rw [holders] at hi
    omega

theorem Ledger.same (hl : s.Ledger env loans) (h : s.Same s') : s'.Ledger env loans := by
  refine hl.of_frame h.frame (h.counted hl.counted) (fun i _ => ?_) fun i _ => ?_
  all_goals rw [h.refs hl.counted]

theorem Ledger.keeps (hl : s.Ledger env loans) (h : s.Keeps env id s') :
    s'.Ledger env (id :: loans) := by
  unfold Keeps at h
  split_ifs at h with hv
  · refine hl.of_frame h.frame (h.counted hl.counted) (fun i _ => ?_) fun i hi => ?_
    · rw [h.refs hl.counted]
    · have hne : id ≠ i := fun heq => hi (heq ▸ hv)
      rw [h.refs hl.counted, count_cons_of_ne hne]
  · refine hl.of_frame h.frame (h.counted hl.counted) (fun i hi => ?_) fun i _ => ?_
    · have hne : i ≠ id := fun heq => hv (heq ▸ hi)
      rw [h.refs hl.counted, update_of_ne hne]
    · rw [h.refs hl.counted, update_apply, count_cons]
      grind

theorem Ledger.loses (hl : s.Ledger env (id :: loans)) (h : s.Loses env id s') :
    s'.Ledger env loans := by
  unfold Loses at h
  split_ifs at h with hv
  · refine hl.of_frame h.frame (h.counted hl.counted) (fun i _ => ?_) fun i hi => ?_
    · rw [h.refs hl.counted]
    · have hne : id ≠ i := fun heq => hi (heq ▸ hv)
      rw [h.refs hl.counted, count_cons_of_ne hne]
  · -- the loan shows that there is a reference to drop
    have hpos : 1 ≤ s.refs id := by
      rw [hl.refs id, if_neg hv, count_cons_self]
      omega
    refine hl.of_frame h.frame (h.counted hl.counted) (fun i hi => ?_) fun i _ => ?_
    · have hne : i ≠ id := fun heq => hv (heq ▸ hi)
      rw [h.refs hl.counted, update_of_ne hne]
    · rw [h.refs hl.counted, update_apply, count_cons]
      grind

/-! ### Changing the table -/

/-- The state with another table. -/
theorem counted_oft (hc : s.Counted) (oft : List (Option OftEntry)) :
    Counted { s with oft := oft } := ⟨hc.disk, hc.nodup, hc.pos, hc.loaded⟩

theorem Ledger.of_oft {loans' : List ℕ} {oft : List (Option OftEntry)} (hl : s.Ledger env loans)
    (hcount : ∀ i, oft.countP (refersTo i) + loans'.count i = s.holders i + loans.count i)
    (hino : ∀ (fd : ℕ) (e : OftEntry), oft[fd]? = some (some e) → e.inoId ≠ 0) :
    Ledger env loans' { s with oft := oft } := by
  refine ⟨counted_oft hl.counted oft, fun i => ?_, hino, hl.inodes, hl.high⟩
  have hi := hl.refs i
  have hsum := hcount i
  change s.refs i = if s.isVirtual env i then 0 else oft.countP (refersTo i) + loans'.count i
  rw [hi, hsum]

/-- An entry is assigned that refers to the same inode. -/
theorem Ledger.set_entry (hl : s.Ledger env loans) (he : s.oft[fd]? = some (some e))
    (hid : e'.inoId = e.inoId) : Ledger env loans { s with oft := s.oft.set fd (some e') } := by
  refine hl.of_oft (fun i => ?_) fun fd' d hd => ?_
  · have hset := holders_set_some i he (some e')
    simp only [refersTo_some, hid, decide_eq_true_eq] at hset
    omega
  · rw [getElem?_set] at hd
    split_ifs at hd
    · obtain rfl := some.inj (some.inj hd)
      rw [hid]
      exact hl.ino fd e he
    · exact hl.ino fd' d hd

/-- An entry is made to refer to another inode. -/
theorem Ledger.retarget (hl : s.Ledger env (target :: loans)) (ht : target ≠ 0)
    (he : s.oft[fd]? = some (some e)) :
    Ledger env (e.inoId :: loans)
      { s with oft := s.oft.set fd (some { e with inoId := target }) } := by
  refine hl.of_oft (fun i => ?_) fun fd' d hd => ?_
  · have hset := holders_set_some i he (some { e with inoId := target })
    simp only [refersTo_some, decide_eq_true_eq] at hset
    rw [count_cons, count_cons]
    grind
  · rw [getElem?_set] at hd
    split_ifs at hd
    · obtain rfl := some.inj (some.inj hd)
      exact ht
    · exact hl.ino fd' d hd

/-- The state after a new entry has been put in the table. -/
def pushed (s : Fs) (e : OftEntry) : Fs :=
  { s with
    oft := if s.freeFd = s.oft.length then s.oft ++ [some e] else s.oft.set s.freeFd (some e) }

/-- The state after the last reference to an entry has been dropped. -/
def cleared (s : Fs) (fd : ℕ) : Fs :=
  { s with oft := if s.oft.length = fd + 1 then s.oft.dropLast else s.oft.set fd none }

theorem getElem?_freeFd (h : s.freeFd ≠ s.oft.length) : s.oft[s.freeFd]? = some none := by
  have hlt : s.oft.findIdx (fun e => e.isNone) < s.oft.length :=
    lt_of_le_of_ne findIdx_le_length h
  have hnone := findIdx_getElem (p := fun e : Option OftEntry => e.isNone) (w := hlt)
  rw [freeFd, getElem?_eq_getElem hlt, isNone_iff_eq_none.mp hnone]

theorem getElem?_pushed (fd : ℕ) :
    (s.pushed e).oft[fd]?.join = if fd = s.freeFd then some e else s.oft[fd]?.join := by
  unfold pushed
  by_cases h : s.freeFd = s.oft.length
  · rw [if_pos h, getElem?_append]
    split_ifs with hlt heq heq
    · omega
    · rfl
    · simp [heq, h]
    · have hge : s.oft.length < fd := by omega
      have hsub : fd - s.oft.length ≠ 0 := by omega
      rw [getElem?_eq_none hge.le]
      simp [hsub]
  · have hlt : s.freeFd < s.oft.length :=
      (List.getElem?_eq_some_iff.mp (getElem?_freeFd h)).1
    rw [if_neg h, getElem?_set]
    by_cases heq : fd = s.freeFd
    · simp [heq, hlt]
    · rw [if_neg (Ne.symm heq), if_neg heq]

theorem Ledger.push (hl : s.Ledger env (e.inoId :: loans)) (h0 : e.inoId ≠ 0) :
    (s.pushed e).Ledger env loans := by
  refine hl.of_oft (fun i => ?_) fun fd d hd => ?_
  · rw [count_cons]
    by_cases h : s.freeFd = s.oft.length
    · rw [if_pos h, countP_append, countP_singleton, refersTo_some, holders]
      grind
    · rw [if_neg h, holders_set_none (getElem?_freeFd h), refersTo_some]
      grind
  · have hpush := getElem?_pushed (s := s) (e := e) fd
    rw [pushed, hd] at hpush
    split_ifs at hpush with hfd
    · obtain rfl := some.inj hpush
      exact h0
    · exact hl.ino fd d (join_eq_some_iff.mp hpush.symm)

theorem oft_eq_append (he : s.oft[fd]? = some (some e)) (hlen : s.oft.length = fd + 1) :
    s.oft = s.oft.dropLast ++ [some e] := by
  have hne : s.oft ≠ [] := by
    intro h
    rw [h] at hlen
    exact Nat.noConfusion hlen
  have hlast : s.oft.getLast hne = some e := by
    rw [getLast_eq_getElem]
    have hidx : s.oft.length - 1 = fd := by omega
    obtain ⟨_, hget⟩ := List.getElem?_eq_some_iff.mp he
    simpa only [hidx] using hget
  rw [← hlast, dropLast_append_getLast]

theorem getElem?_cleared (fd' : ℕ) (hlt : fd < s.oft.length) :
    (s.cleared fd).oft[fd']?.join = if fd' = fd then none else s.oft[fd']?.join := by
  unfold cleared
  by_cases h : s.oft.length = fd + 1
  · rw [if_pos h, getElem?_dropLast]
    split_ifs with hlt' heq heq
    · omega
    · rfl
    · rfl
    · rw [getElem?_eq_none (by omega)]
  · rw [if_neg h, getElem?_set]
    by_cases heq : fd' = fd
    · simp [heq, hlt]
    · rw [if_neg (Ne.symm heq), if_neg heq]

theorem Ledger.clear (hl : s.Ledger env loans) (he : s.oft[fd]? = some (some e)) :
    (s.cleared fd).Ledger env (e.inoId :: loans) := by
  refine hl.of_oft (fun i => ?_) fun fd' d hd => ?_
  · rw [count_cons]
    by_cases h : s.oft.length = fd + 1
    · have happ := congrArg (List.countP (refersTo i)) (oft_eq_append he h)
      rw [countP_append, countP_singleton, refersTo_some] at happ
      rw [if_pos h, holders]
      grind
    · have hset := holders_set_some i he none
      rw [refersTo_none] at hset
      rw [if_neg h]
      grind
  · have hclear := getElem?_cleared (s := s) fd' (List.getElem?_eq_some_iff.mp he).1
    rw [cleared, hd] at hclear
    split_ifs at hclear with hfd
    · exact absurd hclear (some_ne_none d)
    · exact hl.ino fd' d (join_eq_some_iff.mp hclear.symm)

/-! ### The reference counts of entries -/

/-- The reference count of an entry after one reference to it has been dropped. -/
def dropRef : Option UInt16 → Option UInt16
  | none => none
  | some n => if n - 1 = 0 then none else some (n - 1)

theorem entryRefs_pushed : (s.pushed e).entryRefs =
    update s.entryRefs s.freeFd (some e.refCount) := by
  funext fd
  rw [entryRefs, getElem?_pushed, update_apply]
  split_ifs <;> rfl

theorem entryRefs_freeFd : s.entryRefs s.freeFd = none := by
  rw [entryRefs]
  by_cases h : s.freeFd = s.oft.length
  · rw [h, getElem?_eq_none (Nat.le_refl _)]
    rfl
  · rw [getElem?_freeFd h]
    rfl

theorem entryRefs_of_some (he : s.oft[fd]? = some (some e)) : s.entryRefs fd = some e.refCount := by
  rw [entryRefs, he]
  rfl

theorem entryRefs_cleared (he : s.oft[fd]? = some (some e)) :
    (s.cleared fd).entryRefs = update s.entryRefs fd none := by
  funext fd'
  rw [entryRefs, getElem?_cleared fd' (List.getElem?_eq_some_iff.mp he).1, update_apply]
  split_ifs <;> rfl

theorem entryRefs_set (he : s.oft[fd]? = some (some e)) :
    entryRefs { s with oft := s.oft.set fd (some e') } =
      update s.entryRefs fd (some e'.refCount) := by
  obtain ⟨hlt, -⟩ := List.getElem?_eq_some_iff.mp he
  funext fd'
  rw [entryRefs, getElem?_set, update_apply]
  by_cases h : fd = fd'
  · subst h
    simp [hlt]
  · rw [if_neg h, if_neg (Ne.symm h)]
    rfl

/-- What an operation does between operations: the ledger still balances, and the reference counts
of entries have changed by `f`. -/
structure Booked (env : Env) (f : (ℕ → Option UInt16) → ℕ → Option UInt16) (s s' : Fs) : Prop where
  rest : s'.rest = s.rest
  ledger : ∀ loans, s.Ledger env loans → s'.Ledger env loans
  entryRefs : s'.entryRefs = f s.entryRefs

/-- The entries are the same. -/
def Kept (env : Env) (s s' : Fs) : Prop := s.Booked env (fun ρ => ρ) s'

/-- There is a new entry. -/
def Opened (env : Env) (fd : ℕ) (s s' : Fs) : Prop :=
  s.entryRefs fd = none ∧ s.Booked env (fun ρ => update ρ fd (some 1)) s'

/-- A reference to an entry has been dropped. -/
def Closed (env : Env) (fd : ℕ) (s s' : Fs) : Prop :=
  s.Booked env (fun ρ => update ρ fd (dropRef (ρ fd))) s'

/-- There is a new reference to an entry. -/
def Shared (env : Env) (fd : ℕ) (s s' : Fs) : Prop :=
  s.Booked env (fun ρ => update ρ fd ((ρ fd).map (· + 1))) s'

/-- A reference to an entry was added and dropped again. -/
def Retracted (env : Env) (fd : ℕ) (s s' : Fs) : Prop :=
  s.Booked env (fun ρ => update ρ fd (dropRef ((ρ fd).map (· + 1)))) s'

theorem Booked.comp (h : s.Booked env f s') (h' : s'.Booked env g s'') :
    s.Booked env (fun ρ => g (f ρ)) s'' where
  rest := h'.rest.trans h.rest
  ledger loans hl := h'.ledger loans (h.ledger loans hl)
  entryRefs := by rw [h'.entryRefs, h.entryRefs]

theorem entryRefs_of_frame (h : s'.frame = s.frame) : s'.entryRefs = s.entryRefs := by
  funext fd
  rw [entryRefs, entryRefs, oft_of_frame h]

@[grind ←] theorem Same.kept (h : s.Same s') : s.Kept env s' where
  rest := rest_of_frame h.frame
  ledger _ hl := hl.same h
  entryRefs := entryRefs_of_frame h.frame

@[grind .] theorem Kept.refl (s : Fs) : s.Kept env s := (Same.refl s).kept

@[grind →] theorem Kept.trans (h : s.Kept env s') (h' : s'.Kept env s'') : s.Kept env s'' :=
  h.comp h'

@[grind →] theorem Kept.same (h : s.Kept env s') (h' : s'.Same s'') : s.Kept env s'' :=
  h.trans h'.kept

@[grind →] theorem Same.kept_trans (h : s.Same s') (h' : s'.Kept env s'') : s.Kept env s'' :=
  h.kept.trans h'

@[grind →] theorem Kept.opened (h : s.Kept env s') (h' : s'.Opened env fd s'') :
    s.Opened env fd s'' :=
  ⟨h.entryRefs ▸ h'.1, h.comp h'.2⟩

@[grind →] theorem Opened.kept (h : s.Opened env fd s') (h' : s'.Kept env s'') :
    s.Opened env fd s'' :=
  ⟨h.1, h.2.comp h'⟩

@[grind →] theorem Same.opened (h : s.Same s') (h' : s'.Opened env fd s'') :
    s.Opened env fd s'' :=
  h.kept.opened h'

@[grind →] theorem Kept.closed (h : s.Kept env s') (h' : s'.Closed env fd s'') :
    s.Closed env fd s'' :=
  h.comp h'

@[grind →] theorem Opened.closed (h : s.Opened env fd s') (h' : s'.Closed env fd s'') :
    s.Kept env s'' := by
  have hc := h.2.comp h'
  refine ⟨hc.rest, hc.ledger, ?_⟩
  rw [hc.entryRefs, update_self, update_idem]
  exact update_eq_self_iff.mpr h.1.symm

@[grind →] theorem Same.closed (h : s.Same s') (h' : s'.Closed env fd s'') :
    s.Closed env fd s'' :=
  h.kept.closed h'

@[grind →] theorem Shared.kept (h : s.Shared env fd s') (h' : s'.Kept env s'') :
    s.Shared env fd s'' :=
  h.comp h'

@[grind →] theorem Shared.closed (h : s.Shared env fd s') (h' : s'.Closed env fd s'') :
    s.Retracted env fd s'' := by
  have hc := Booked.comp h h'
  refine ⟨hc.rest, hc.ledger, ?_⟩
  rw [hc.entryRefs, update_self, update_idem]

/-- An entry is assigned that refers to the same inode and has the same references. -/
theorem Kept.set_entry (h : s.Kept env s') (he : s'.oft[fd]? = some (some e))
    (hid : e'.inoId = e.inoId) (hrefs : e'.refCount = e.refCount) :
    s.Kept env { s' with oft := s'.oft.set fd (some e') } := by
  refine h.trans ⟨rfl, fun loans hl => hl.set_entry he hid, ?_⟩
  rw [entryRefs_set he, hrefs]
  exact update_eq_self_iff.mpr (entryRefs_of_some he).symm

end Fs

end OsPi
