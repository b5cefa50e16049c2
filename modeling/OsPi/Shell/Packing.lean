import OsPi.Shell.Measure

/-!
# The Second Pass

The second pass of the parser writes in three parts of its block: pointers to the commands,
pointers to the words and terminators in the copy of the text. `Filled` says what the block holds
after some tokens; each write touches only what comes after that, so it is kept by every
iteration, and the counts of the first pass are the room the pass needs. At the end the block
holds the command line (`parseCommand_spec`).
-/

namespace OsPi.Shell

open Bytes List Option

variable {mem off lo hi o len v addr ptr : ℕ} {w : Str} {ws : List Str} {name : Option Str}
  {hi' : ℕ}

/-! ### Strings and vectors in memory -/

/-- The text `w` with a terminator at an offset. -/
structure StringAt (mem off : ℕ) (w : Str) : Prop where
  noNull : 0 ∉ w
  chars : ∀ i c, w[i]? = some c → byte mem (off + i) = c.toNat
  ends : byte mem (off + w.length) = 0

theorem StringAt.write (h : StringAt mem off w) (hdis : off + w.length < o ∨ o + len ≤ off) :
    StringAt (write mem o len v) off w where
  noNull := h.noNull
  chars i c hc := by
    have hi := (List.getElem?_eq_some_iff.mp hc).1
    rw [byte_write, if_neg (by omega), h.chars i c hc]
  ends := by rw [byte_write, if_neg (by omega), h.ends]

/-- A pointer to a string that lies, with its terminator, between two offsets. -/
def PointsTo (addr mem lo hi ptr : ℕ) (w : Str) : Prop :=
  ∃ off, ptr = addr + off ∧ lo ≤ off ∧ off + w.length ≤ hi ∧ StringAt mem off w

theorem PointsTo.write (h : PointsTo addr mem lo hi ptr w) (hdis : hi < o ∨ o + len ≤ lo) :
    PointsTo addr (write mem o len v) lo hi ptr w := by
  obtain ⟨off, hptr, hlo, hhi, hstr⟩ := h
  exact ⟨off, hptr, hlo, hhi, hstr.write (by omega)⟩

theorem PointsTo.mono (h : PointsTo addr mem lo hi ptr w) (hle : hi ≤ hi') :
    PointsTo addr mem lo hi' ptr w := by
  obtain ⟨off, hptr, hlo, hhi, hstr⟩ := h
  exact ⟨off, hptr, hlo, hhi.trans hle, hstr⟩

/-- Pointers to the given strings, one after the other. -/
def VectorAt (addr mem lo hi off : ℕ) (ws : List Str) : Prop :=
  ∀ i w, ws[i]? = some w → PointsTo addr mem lo hi (read mem (off + 8 * i) 8) w

theorem VectorAt.write (h : VectorAt addr mem lo hi off ws) (hdis : hi < o ∨ o + len ≤ lo)
    (hdis' : off + 8 * ws.length ≤ o ∨ o + len ≤ off) :
    VectorAt addr (write mem o len v) lo hi off ws := by
  intro i w hw
  have hi := (List.getElem?_eq_some_iff.mp hw).1
  rw [read_write_of_disjoint (by omega)]
  exact (h i w hw).write hdis

theorem VectorAt.mono (h : VectorAt addr mem lo hi off ws) (hle : hi ≤ hi') :
    VectorAt addr mem lo hi' off ws := fun i w hw => (h i w hw).mono hle

theorem getElem?_concat_eq_some {α : Type} {l : List α} {a x : α} {i : ℕ}
    (h : (l ++ [a])[i]? = some x) : l[i]? = some x ∨ i = l.length ∧ x = a := by
  rw [getElem?_append] at h
  split at h
  · exact .inl h
  · rw [getElem?_singleton] at h
    split_ifs at h
    exact .inr ⟨by omega, (some.inj h).symm⟩

theorem VectorAt.concat (h : VectorAt addr mem lo hi off ws)
    (hw : PointsTo addr mem lo hi (read mem (off + 8 * ws.length) 8) w) :
    VectorAt addr mem lo hi off (ws ++ [w]) := by
  intro i u hu
  rcases getElem?_concat_eq_some hu with hu | ⟨rfl, rfl⟩
  · exact h i u hu
  · exact hw

/-- An argument vector: the pointers and a null pointer after them. -/
structure ArgvAt (addr mem lo hi off : ℕ) (ws : List Str) : Prop where
  vector : VectorAt addr mem lo hi off ws
  ends : read mem (off + 8 * ws.length) 8 = 0

theorem ArgvAt.write (h : ArgvAt addr mem lo hi off ws) (hdis : hi < o ∨ o + len ≤ lo)
    (hdis' : off + 8 * (ws.length + 1) ≤ o ∨ o + len ≤ off) :
    ArgvAt addr (write mem o len v) lo hi off ws where
  vector := h.vector.write hdis (by omega)
  ends := by rw [read_write_of_disjoint (by omega), h.ends]

theorem ArgvAt.mono (h : ArgvAt addr mem lo hi off ws) (hle : hi ≤ hi') :
    ArgvAt addr mem lo hi' off ws := ⟨h.vector.mono hle, h.ends⟩

/-! ### What the block holds -/

/-- The pointers the vectors of the given commands take. -/
def slots (done : List (List Str)) : ℕ := (done.map fun ws => ws.length + 1).sum

theorem slots_concat (done : List (List Str)) (ws : List Str) :
    slots (done ++ [ws]) = slots done + (ws.length + 1) := by
  simp [slots]

theorem slots_eq (done : List (List Str)) :
    slots done = (done.map List.length).sum + done.length := by
  induction done with
  | nil => rfl
  | cons ws done ih =>
    rw [slots, map_cons, List.sum_cons, ← slots, ih, map_cons, List.sum_cons, length_cons]
    omega

theorem Sizes.startOfArray_eq (z : Sizes) : z.startOfArray = 32 + 8 * z.numCommands := by
  rw [startOfArray, startOfCommands, ptrSize, Nat.mul_comm]

theorem Sizes.startOfStr_eq (z : Sizes) :
    z.startOfStr = z.startOfArray + 8 * (z.numCommands + z.totalStrings) := by
  rw [startOfStr, ptrSize, Nat.mul_comm]

/-- A file name in a field of the result, or none. -/
def NameIn (addr mem lo hi ptr : ℕ) : Option Str → Prop
  | none => ptr = 0
  | some w => PointsTo addr mem lo hi ptr w

/-- The block after the second pass has come to a position: the vectors of the commands it has
finished, the pointers to the words of the one it is in, and the words of the text that follow
are still there. -/
structure Filled (z : Sizes) (s : Str) (p : Parsed) (cur : ℕ) (done : List (List Str))
    (ws : List Str) (inp out : Option Str) : Prop where
  finished : ∀ i us, done[i]? = some us → ∃ k, k + us.length + 1 ≤ slots done ∧
    read p.mem (32 + 8 * i) 8 = p.addr + (z.startOfArray + 8 * k) ∧
    ArgvAt p.addr p.mem z.startOfStr (z.startOfStr + cur) (z.startOfArray + 8 * k) us
  start : read p.mem (32 + 8 * done.length) 8 = p.addr + (z.startOfArray + 8 * slots done)
  current : VectorAt p.addr p.mem z.startOfStr (z.startOfStr + cur)
    (z.startOfArray + 8 * slots done) ws
  text : ∀ i c, cur ≤ i → s[i]? = some c → wordChar c = true →
    byte p.mem (z.startOfStr + i) = c.toNat
  input : NameIn p.addr p.mem z.startOfStr (z.startOfStr + cur) p.stdinFile inp
  output : NameIn p.addr p.mem z.startOfStr (z.startOfStr + cur) p.stdoutFile out

theorem NameIn.write (h : NameIn addr mem lo hi ptr name)
    (hdis : hi < o ∨ o + len ≤ lo) : NameIn addr (write mem o len v) lo hi ptr name := by
  cases name with
  | none => exact h
  | some w => exact PointsTo.write h hdis

theorem NameIn.mono (h : NameIn addr mem lo hi ptr name)
    (hle : hi ≤ hi') : NameIn addr mem lo hi' ptr name := by
  cases name with
  | none => exact h
  | some w => exact PointsTo.mono h hle

/-- The result with other bytes. -/
abbrev Parsed.withMem (p : Parsed) (mem : ℕ) : Parsed := { p with mem }

namespace Filled

variable {z : Sizes} {s : Str} {p : Parsed} {cur : ℕ} {done : List (List Str)}
  {inp out : Option Str} (h : Filled z s p cur done ws inp out)
  (hcmd : done.length + 1 ≤ z.numCommands)
  (hcap : slots done + ws.length ≤ z.numCommands + z.totalStrings)
include h

/-- A write to bytes that are not in use yet. -/
theorem write {e : ℕ} (hle : cur ≤ e) (hcmds : 32 + 8 * (done.length + 1) ≤ o)
    (hslots : z.startOfArray + 8 * (slots done + ws.length) ≤ o ∨ o + len ≤ z.startOfArray)
    (hstrs : z.startOfStr + cur < o ∨ o + len ≤ z.startOfStr)
    (htext : ∀ i c, e ≤ i → s[i]? = some c → wordChar c = true →
      z.startOfStr + i < o ∨ o + len ≤ z.startOfStr + i) :
    Filled z s (p.withMem (Bytes.write p.mem o len v)) e done ws inp out := by
  refine ⟨fun i us hus => ?_, ?_, ?_, fun i c hi hc hw => ?_, ?_, ?_⟩
  · obtain ⟨k, hk, hread, hargv⟩ := h.finished i us hus
    have hi := (List.getElem?_eq_some_iff.mp hus).1
    refine ⟨k, hk, ?_, (hargv.write (by omega) (by omega)).mono (by omega)⟩
    rw [← hread]
    exact read_write_of_disjoint (by omega)
  · rw [← h.start]
    exact read_write_of_disjoint (by omega)
  · exact (h.current.write (by omega) (by omega)).mono (by omega)
  · have hdis := htext i c hi hc hw
    rw [← h.text i c (by omega) hc hw, byte_write, if_neg (by omega)]
  · exact (h.input.write (by omega)).mono (by omega)
  · exact (h.output.write (by omega)).mono (by omega)

include hcmd

/-- A write to pointers. -/
theorem write_slot (hdis : 32 + 8 * (done.length + 1) ≤ o ∧ o + len ≤ z.startOfArray ∨
      z.startOfArray + 8 * (slots done + ws.length) ≤ o ∧ o + len ≤ z.startOfStr) :
    Filled z s (p.withMem (Bytes.write p.mem o len v)) cur done ws inp out := by
  have hB := z.startOfArray_eq
  have hS := z.startOfStr_eq
  exact h.write (le_refl _) (by omega) (by omega) (by omega) fun i c _ _ _ => by omega

include hcap in
/-- A terminator after the position. -/
theorem write_end {e : ℕ} (he : cur < e) (hend : ∀ c, s[e]? = some c → wordChar c = false) :
    Filled z s (p.withMem (Bytes.write p.mem (z.startOfStr + e) 1 0)) e done ws inp out := by
  have hB := z.startOfArray_eq
  have hS := z.startOfStr_eq
  refine h.write he.le (by omega) (by omega) (by omega) fun i c hi hc hw => ?_
  have hne : i ≠ e := by
    rintro rfl
    rw [hend c hc] at hw
    cases hw
  omega

omit hcmd in
/-- A word of the text, once a terminator has been put after it. -/
theorem pointsTo_word {pos : ℕ} (hnull : 0 ∉ s) (hpos : cur ≤ pos) (hw : WordAt s pos w) :
    PointsTo p.addr (Bytes.write p.mem (z.startOfStr + (pos + w.length)) 1 0) z.startOfStr
      (z.startOfStr + (pos + w.length)) (p.addr + z.startOfStr + pos) w := by
  refine ⟨z.startOfStr + pos, Nat.add_assoc _ _ _, Nat.le_add_right _ _, by omega, ?_, ?_, ?_⟩
  · intro hmem
    refine hnull (mem_of_mem_drop (i := pos) ?_)
    rw [hw.drop_eq]
    exact mem_append_left _ hmem
  · intro i c hc
    have hi := (List.getElem?_eq_some_iff.mp hc).1
    have hs : s[pos + i]? = some c := by
      rw [← getElem?_drop, hw.drop_eq, getElem?_append_left hi, hc]
    have hchar := hw.isWord.chars c (mem_of_getElem? hc)
    rw [byte_write, if_neg (by omega), ← h.text (pos + i) c (by omega) hs hchar, Nat.add_assoc]
  · have hsub : z.startOfStr + pos + w.length - (z.startOfStr + (pos + w.length)) = 0 := by omega
    rw [byte_write, if_pos (by omega), hsub]
    rfl

end Filled

/-! ### One token -/

theorem Parsed.store_eq {p : Parsed} (h : o + len ≤ p.size) :
    p.store o len v = .ok (p.withMem (write p.mem o len v)) := if_pos h

/-- The fields the second pass does not write. -/
structure Parsed.Same (p q : Parsed) : Prop where
  isBackground : p.isBackground = q.isBackground
  isFileAppend : p.isFileAppend = q.isFileAppend
  isHereDocument : p.isHereDocument = q.isHereDocument
  numCommands : p.numCommands = q.numCommands
  addr : p.addr = q.addr
  size : p.size = q.size

theorem Parsed.Same.fields {p q : Parsed} (h : p.Same q) (stdinFile stdoutFile mem : ℕ) :
    Parsed.Same { p with stdinFile, stdoutFile, mem } q :=
  ⟨h.isBackground, h.isFileAppend, h.isHereDocument, h.numCommands, h.addr, h.size⟩

/-- The state of the second pass: the block, and the local variables. `q` is the block at the
start, whose other fields do not change. -/
structure Ready (z : Sizes) (s : Str) (q : Parsed) (f : Fill) (cur : ℕ) (done : List (List Str))
    (ws : List Str) (inp out : Option Str) : Prop where
  filled : Filled z s f.pcmd cur done ws inp out
  curCmd : f.curCmd = done.length
  argvPtr : f.argvPtr = z.startOfArray + 8 * (slots done + ws.length)
  same : f.pcmd.Same q

/-- The block is as large as the counts of the first pass ask for, and lies in memory. -/
structure Room (z : Sizes) (s : Str) (q : Parsed) : Prop where
  size : q.size = z.total
  addr : q.addr + z.total ≤ 2 ^ 64
  slen : z.slen = s.length
  noNull : 0 ∉ s

section Steps

variable {z : Sizes} {s : Str} {q : Parsed} {f : Fill} {cur : ℕ} {done : List (List Str)}
  {inp out : Option Str} (hroom : Room z s q) (h : Ready z s q f cur done ws inp out)
  (hcmd : done.length + 1 ≤ z.numCommands)
  (hcap : slots done + ws.length + 1 ≤ z.numCommands + z.totalStrings)

include hroom h

theorem Ready.size_eq : f.pcmd.size = z.startOfStr + s.length + 1 := by
  rw [h.same.size, ← hroom.slen]
  exact hroom.size

theorem Ready.addr_lt {x : ℕ} (hx : x ≤ z.startOfStr + s.length) :
    (f.pcmd.addr + x) % 2 ^ (8 * 8) = f.pcmd.addr + x := by
  have haddr : f.pcmd.addr + (z.startOfStr + s.length + 1) ≤ 2 ^ 64 := by
    rw [h.same.addr, ← hroom.slen]
    exact hroom.addr
  exact Nat.mod_eq_of_lt (by omega)

include hcmd hcap

/-- A word gets a pointer and a terminator. -/
theorem fillStep_word (hw : WordAt s cur w) :
    ∃ f', fillStep z s f cur = .ok (f', cur + w.length) ∧
      Ready z s q f' (cur + w.length) done (ws ++ [w]) inp out := by
  obtain ⟨-, hlt, hgt, hbar⟩ := ne_of_wordChar hw.wordChar_getD
  have hB := z.startOfArray_eq
  have hS := z.startOfStr_eq
  have hsize := h.size_eq hroom
  have hend := hw.end_le
  have hpos := hw.length_pos
  have hargv : f.argvPtr + 8 ≤ z.startOfStr := by
    rw [h.argvPtr]
    omega
  let p₁ := f.pcmd.withMem (write f.pcmd.mem f.argvPtr 8 (f.pcmd.addr + z.startOfStr + cur))
  have h₁ : Filled z s p₁ cur done ws inp out :=
    h.filled.write_slot hcmd (.inr ⟨h.argvPtr.ge, hargv⟩)
  let p₂ := p₁.withMem (write p₁.mem (z.startOfStr + (cur + w.length)) 1 0)
  have h₂ : Filled z s p₂ (cur + w.length) done ws inp out :=
    h₁.write_end hcmd (by omega) (by omega) hw.end_notWordChar
  have hptr : read p₂.mem (z.startOfArray + 8 * slots done + 8 * ws.length) 8 =
      f.pcmd.addr + z.startOfStr + cur := by
    have hoff : z.startOfArray + 8 * slots done + 8 * ws.length = f.argvPtr := by
      rw [h.argvPtr]
      omega
    rw [hoff, read_write_of_disjoint (by omega), read_write_self, Nat.add_assoc,
      h.addr_lt hroom (by omega)]
  refine ⟨⟨p₂, f.curCmd, f.argvPtr + 8⟩, ?_, ⟨?_, h.curCmd, ?_, ?_⟩⟩
  · rw [fillStep, if_neg hlt, if_neg hgt, if_neg hbar, ptrSize, Parsed.store_eq (by omega)]
    have hstore : terminate z p₁ (cur + w.length) = .ok p₂ :=
      Parsed.store_eq (show _ ≤ f.pcmd.size by omega)
    simp only [hw.skipWord_eq]
    change (terminate z p₁ (cur + w.length) >>= _) = _
    rw [hstore]
    rfl
  · refine { h₂ with current := h₂.current.concat ?_ }
    rw [hptr]
    exact h₁.pointsTo_word hroom.noNull (le_refl _) hw
  · change f.argvPtr + 8 = _
    rw [h.argvPtr, length_append, length_singleton]
    omega
  · exact h.same.fields ..

/-- A pipe ends the vector of a command and starts the next one. -/
theorem fillStep_pipe (hc : s.getD cur 0 = bar) (hlt : cur < s.length)
    (hnext : done.length + 2 ≤ z.numCommands) :
    ∃ f', fillStep z s f cur = .ok (f', cur + 1) ∧
      Ready z s q f' (cur + 1) (done ++ [ws]) [] inp out := by
  have hB := z.startOfArray_eq
  have hS := z.startOfStr_eq
  have hsize := h.size_eq hroom
  have hargv : f.argvPtr = z.startOfArray + 8 * slots done + 8 * ws.length := by
    rw [h.argvPtr]
    omega
  let p₁ := f.pcmd.withMem (write f.pcmd.mem f.argvPtr 8 0)
  have h₁ : Filled z s p₁ cur done ws inp out :=
    h.filled.write_slot hcmd (.inr ⟨h.argvPtr.ge, by omega⟩)
  let p₂ := p₁.withMem (write p₁.mem (32 + 8 * (done.length + 1)) 8 (f.pcmd.addr + (f.argvPtr + 8)))
  have h₂ : Filled z s p₂ cur done ws inp out := h₁.write_slot hcmd (.inl ⟨le_refl _, by omega⟩)
  have hnull : read p₂.mem (z.startOfArray + 8 * slots done + 8 * ws.length) 8 = 0 := by
    rw [read_write_of_disjoint (by omega), ← hargv, read_write_self, Nat.zero_mod]
  have hslots : slots (done ++ [ws]) = slots done + (ws.length + 1) := slots_concat done ws
  refine ⟨⟨p₂, f.curCmd + 1, f.argvPtr + 8⟩, ?_, ⟨⟨?_, ?_, nofun, ?_, ?_, ?_⟩, ?_, ?_, ?_⟩⟩
  · have hstore : p₁.store (startOfCommands + (f.curCmd + 1) * ptrSize) ptrSize
        (p₁.addr + (f.argvPtr + ptrSize)) = .ok p₂ := by
      rw [h.curCmd, startOfCommands, ptrSize, Nat.mul_comm]
      exact Parsed.store_eq (show _ ≤ f.pcmd.size by omega)
    have hstore₁ : f.pcmd.store f.argvPtr ptrSize 0 = .ok p₁ :=
      Parsed.store_eq (show f.argvPtr + 8 ≤ _ by omega)
    rw [fillStep, hc, if_neg (by decide), if_neg (by decide), if_pos rfl, hstore₁]
    change (p₁.store _ _ _ >>= _) = _
    rw [hstore]
    rfl
  · intro i us hus
    rcases getElem?_concat_eq_some hus with hus | ⟨rfl, rfl⟩
    · obtain ⟨k, hk, hread, hat⟩ := h₂.finished i us hus
      exact ⟨k, by omega, hread, hat.mono (by omega)⟩
    · refine ⟨slots done, by omega, h₂.start, ?_, hnull⟩
      exact h₂.current.mono (by omega)
  · rw [length_append, length_singleton, read_write_self, h.addr_lt hroom (by omega), hargv, hslots]
    congr 1
    omega
  · exact fun i c hi => h₂.text i c (by omega)
  · exact h₂.input.mono (by omega)
  · exact h₂.output.mono (by omega)
  · rw [length_append, length_singleton, ← h.curCmd]
  · change f.argvPtr + 8 = _
    rw [hargv, hslots, length_nil]
    omega
  · exact h.same.fields ..

/-- A file name of a redirection gets a terminator. -/
theorem Ready.write_name {twice : Bool} (hw : WordAt s (afterSign s cur twice) w) :
    ∃ mem, Filled z s (f.pcmd.withMem mem) (afterSign s cur twice + w.length) done ws inp out ∧
      PointsTo f.pcmd.addr mem z.startOfStr (z.startOfStr + (afterSign s cur twice + w.length))
        (f.pcmd.addr + z.startOfStr + afterSign s cur twice) w ∧
      ∀ p : Parsed, p.mem = f.pcmd.mem → p.size = f.pcmd.size →
        terminate z p (afterSign s cur twice + w.length) = .ok (p.withMem mem) := by
  have hle : (if twice then cur + 2 else cur + 1) ≤ afterSign s cur twice := le_skipWhile ..
  have hpos : cur ≤ afterSign s cur twice := by split at hle <;> omega
  have hsize := h.size_eq hroom
  have hend := hw.end_le
  have hlen := hw.length_pos
  refine ⟨_, h.filled.write_end hcmd (by omega) (by omega) hw.end_notWordChar,
    h.filled.pointsTo_word hroom.noNull hpos hw, fun p hmem hsz => ?_⟩
  rw [← hmem]
  exact Parsed.store_eq (by omega)

theorem fillStep_input {here : Bool} (hc : s.getD cur 0 = lt)
    (hw : WordAt s (afterSign s cur here) w) (hhere : q.isHereDocument = here) :
    ∃ f', fillStep z s f cur = .ok (f', afterSign s cur here + w.length) ∧
      Ready z s q f' (afterSign s cur here + w.length) done ws (some w) out := by
  obtain ⟨mem, hfilled, hname, hstore⟩ := h.write_name hroom hcmd hcap hw
  let p := { f.pcmd with stdinFile := f.pcmd.addr + z.startOfStr + afterSign s cur here }
  refine ⟨{ f with pcmd := p.withMem mem }, ?_, { hfilled with input := hname }, h.curCmd,
    h.argvPtr, h.same.fields ..⟩
  rw [fillStep, hc, if_pos rfl, h.same.isHereDocument, hhere]
  simp only [skipSpace_sign, hw.skipWord_eq]
  change (terminate z p _ >>= _) = _
  rw [hstore p rfl rfl]
  rfl

theorem fillStep_output {append : Bool} (hc : s.getD cur 0 = gt)
    (hw : WordAt s (afterSign s cur append) w) (happend : q.isFileAppend = append) :
    ∃ f', fillStep z s f cur = .ok (f', afterSign s cur append + w.length) ∧
      Ready z s q f' (afterSign s cur append + w.length) done ws inp (some w) := by
  obtain ⟨mem, hfilled, hname, hstore⟩ := h.write_name hroom hcmd hcap hw
  let p := { f.pcmd with stdoutFile := f.pcmd.addr + z.startOfStr + afterSign s cur append }
  refine ⟨{ f with pcmd := p.withMem mem }, ?_, { hfilled with output := hname }, h.curCmd,
    h.argvPtr, h.same.fields ..⟩
  rw [fillStep, hc, if_neg (by decide), if_pos rfl, h.same.isFileAppend, happend]
  simp only [skipSpace_sign, hw.skipWord_eq]
  change (terminate z p _ >>= _) = _
  rw [hstore p rfl rfl]
  rfl

end Steps

/-! ### The loop -/

/-- The commands of the tokens, after those that are finished and the words of the current one. -/
def commandsFrom (done : List (List Str)) (ws : List Str) : List Token → List (List Str)
  | [] => done ++ [ws]
  | .word w :: ts => commandsFrom done (ws ++ [w]) ts
  | .pipe :: ts => commandsFrom (done ++ [ws]) [] ts
  | .input _ _ :: ts => commandsFrom done ws ts
  | .output _ _ :: ts => commandsFrom done ws ts

/-- The name of the last redirection. -/
def lastName (name : Option Str) (l : List (Bool × Str)) : Option Str :=
  l.foldl (fun _ x => some x.2) name

section Loop

variable {z : Sizes} {s : Str} {q : Parsed} {f : Fill} {cur fuel : ℕ} {done : List (List Str)}
  {inp out : Option Str} {t : Token} {ts : List Token}

theorem Ready.mono {cur' : ℕ} (h : Ready z s q f cur done ws inp out) (hle : cur ≤ cur') :
    Ready z s q f cur' done ws inp out where
  filled :=
    { finished i us hus := by
        obtain ⟨k, hk, hread, hat⟩ := h.filled.finished i us hus
        exact ⟨k, hk, hread, hat.mono (by omega)⟩
      start := h.filled.start
      current := h.filled.current.mono (by omega)
      text i c hi := h.filled.text i c (by omega)
      input := h.filled.input.mono (by omega)
      output := h.filled.output.mono (by omega) }
  curCmd := h.curCmd
  argvPtr := h.argvPtr
  same := h.same

theorem fillLoop_scan {next : ℕ} {f' : Fill} (h : t.Scan s cur next)
    (hstep : fillStep z s f cur = .ok (f', next)) :
    fillLoop z s (fuel + 1) f cur = fillLoop z s fuel f' (skipSpace s next) := by
  have hbounds := h.bounds
  rw [fillLoop, if_pos (by omega), hstep]
  rfl

/-- The counts that are left when the second pass has come to some tokens. -/
structure Left (z : Sizes) (q : Parsed) (done : List (List Str)) (ws : List Str)
    (ts : List Token) : Prop where
  commands : done.length + 1 + ts.count .pipe = z.numCommands
  strings : slots done + ws.length + 1 + (words ts).length + ts.count .pipe =
    z.numCommands + z.totalStrings
  here : ∀ x ∈ inputs ts, q.isHereDocument = x.1
  append : ∀ x ∈ outputs ts, q.isFileAppend = x.1

/-- **The second pass** takes the tokens one by one, and no write is outside the block. -/
theorem fillLoop_text (hroom : Room z s q) (htext : Text (s.drop cur) ts) (hcur : cur ≤ s.length)
    (h : Ready z s q f cur done ws inp out) (hleft : Left z q done ws ts)
    (hfuel : s.length ≤ fuel + cur) :
    ∃ f' cur' done' ws', fillLoop z s fuel f (skipSpace s cur) = .ok f' ∧ cur' ≤ s.length ∧
      Ready z s q f' cur' done' ws' (lastName inp (inputs ts)) (lastName out (outputs ts)) ∧
      done' ++ [ws'] = commandsFrom done ws ts := by
  induction ts generalizing f cur done ws inp out fuel with
  | nil =>
    have hend := text_nil_iff.mp htext
    refine ⟨f, cur, done, ws, ?_, hcur, h, rfl⟩
    cases fuel <;> rw [fillLoop, if_neg (by omega)] <;> rfl
  | cons t ts ih =>
    obtain ⟨next, hscan, hts⟩ := text_cons_iff.mp htext
    have hbounds := hscan.bounds
    have hle : cur ≤ skipSpace s cur := le_skipWhile ..
    obtain ⟨fuel, rfl⟩ : ∃ k, fuel = k + 1 := ⟨fuel - 1, by omega⟩
    have h' := h.mono hle
    have hcommands := hleft.commands
    have hstrings := hleft.strings
    cases hscan with
    | @word w hw =>
      have hwords : words (.word w :: ts) = w :: words ts := rfl
      rw [count_cons_of_ne (by simp)] at hcommands hstrings
      rw [hwords, length_cons] at hstrings
      obtain ⟨f', hstep, hready⟩ :=
        fillStep_word hroom h' (by omega) (by omega) hw
      rw [fillLoop_scan (.word hw) hstep]
      refine ih hts hbounds.2 hready ⟨by omega, ?_, hleft.here, hleft.append⟩ (by omega)
      rw [length_append, length_singleton]
      omega
    | @input w here hc hhere hw =>
      have hinputs : inputs (.input here w :: ts) = (here, w) :: inputs ts := rfl
      have hhere' := hleft.here
      rw [hinputs, forall_mem_cons] at hhere'
      rw [count_cons_of_ne (by simp)] at hcommands hstrings
      have hwords : words (.input here w :: ts) = words ts := rfl
      rw [hwords] at hstrings
      obtain ⟨f', hstep, hready⟩ :=
        fillStep_input hroom h' (by omega) (by omega) hc hw hhere'.1
      rw [fillLoop_scan (.input hc hhere hw) hstep]
      exact ih hts hbounds.2 hready ⟨hcommands, hstrings, hhere'.2, hleft.append⟩ (by omega)
    | @output w append hc happ hw =>
      have houtputs : outputs (.output append w :: ts) = (append, w) :: outputs ts := rfl
      have happend := hleft.append
      rw [houtputs, forall_mem_cons] at happend
      rw [count_cons_of_ne (by simp)] at hcommands hstrings
      have hwords : words (.output append w :: ts) = words ts := rfl
      rw [hwords] at hstrings
      obtain ⟨f', hstep, hready⟩ :=
        fillStep_output hroom h' (by omega) (by omega) hc hw happend.1
      rw [fillLoop_scan (.output hc happ hw) hstep]
      exact ih hts hbounds.2 hready ⟨hcommands, hstrings, hleft.here, happend.2⟩ (by omega)
    | pipe hlt hc =>
      have hwords : words (.pipe :: ts) = words ts := rfl
      rw [count_cons_self] at hcommands hstrings
      rw [hwords] at hstrings
      obtain ⟨f', hstep, hready⟩ :=
        fillStep_pipe hroom h' (by omega) (by omega) hc hlt (by omega)
      rw [fillLoop_scan (.pipe hlt hc) hstep]
      refine ih hts hbounds.2 hready ⟨?_, ?_, hleft.here, hleft.append⟩ (by omega)
      · rw [length_append, length_singleton]
        omega
      · rw [slots_concat, length_nil]
        omega

end Loop

/-! ### The result -/

/-- A pointer to a string in the block. -/
def Parsed.Points (p : Parsed) (ptr : ℕ) (w : Str) : Prop :=
  ptr ≠ 0 ∧ ∃ off, ptr = p.addr + off ∧ off + w.length < p.size ∧ StringAt p.mem off w

/-- A pointer to a string in the block, or a null pointer. -/
def Parsed.PointsName (p : Parsed) (ptr : ℕ) : Option Str → Prop
  | none => ptr = 0
  | some w => p.Points ptr w

/-- A pointer to an argument vector in the block: pointers to the words and a null pointer. -/
def Parsed.PointsArgv (p : Parsed) (ptr : ℕ) (ws : List Str) : Prop :=
  ∃ off, ptr = p.addr + off ∧ off + 8 * (ws.length + 1) ≤ p.size ∧
    (∀ i w, ws[i]? = some w → p.Points (read p.mem (off + 8 * i) 8) w) ∧
    read p.mem (off + 8 * ws.length) 8 = 0

/-- **The result holds the command line.** -/
structure Parsed.Holds (p : Parsed) (c : CommandLine) : Prop where
  isBackground : p.isBackground = c.background
  isHereDocument : p.isHereDocument = c.input.any Prod.fst
  isFileAppend : p.isFileAppend = c.output.any Prod.fst
  stdinFile : p.PointsName p.stdinFile (c.input.map Prod.snd)
  stdoutFile : p.PointsName p.stdoutFile (c.output.map Prod.snd)
  numCommands : p.numCommands = c.commands.length
  commands : ∀ i ws, c.commands[i]? = some ws →
    p.PointsArgv (read p.mem (startOfCommands + 8 * i) 8) ws

theorem byte_self (c : UInt8) : byte c.toNat 0 = c.toNat := by
  rw [byte, read_zero]
  exact Nat.mod_eq_of_lt c.toNat_lt

/-- The copy of the text. -/
theorem copyText_spec {p : Parsed} {s : Str} (hsize : off + s.length ≤ p.size) :
    ∃ mem, copyText off s p = .ok (p.withMem mem) ∧
      (∀ i c, s[i]? = some c → byte mem (off + i) = c.toNat) ∧
      ∀ x < off, byte mem x = byte p.mem x := by
  induction s generalizing off p with
  | nil => exact ⟨p.mem, rfl, nofun, fun _ _ => rfl⟩
  | cons c s ih =>
    rw [length_cons] at hsize
    obtain ⟨mem, heval, hchars, hframe⟩ :=
      @ih (off + 1) (p.withMem (write p.mem off 1 c.toNat))
        (show off + 1 + s.length ≤ p.size by omega)
    refine ⟨mem, ?_, ?_, ?_⟩
    · rw [copyText, Parsed.store_eq (by omega)]
      exact heval
    · intro i d hd
      cases i with
      | zero =>
        cases hd
        rw [Nat.add_zero, hframe off (Nat.lt_succ_self _), byte_write, if_pos (by omega),
          Nat.sub_self, byte_self]
      | succ i =>
        rw [getElem?_cons_succ] at hd
        rw [← hchars i d hd, Nat.add_assoc, Nat.add_comm 1 i]
    · intro x hx
      rw [hframe x (by omega), byte_write, if_neg (by omega)]

section Commands

variable {done : List (List Str)} {seg ts : List Token} {more : List (List Token)}

theorem commandsFrom_cons {t : Token} (ht : t ≠ .pipe) :
    commandsFrom done ws (t :: ts) = commandsFrom done (ws ++ words [t]) ts := by
  cases t with
  | pipe => exact absurd rfl ht
  | word w => rfl
  | input | output =>
    rw [commandsFrom]
    simp [words]

/-- The commands of a pipeline. -/
theorem commandsFrom_intercalate (hpipe : ∀ x ∈ seg :: more, Token.pipe ∉ x)
    (hts : [Token.pipe].intercalate (seg :: more) = ts) :
    commandsFrom done ws ts = done ++ (ws ++ words seg) :: more.map words := by
  induction ts generalizing done ws seg more with
  | nil =>
    cases seg with
    | nil =>
      cases more with
      | nil => simp [commandsFrom, words]
      | cons next more =>
        rw [intercalate_nil] at hts
        cases hts
    | cons t seg =>
      rw [intercalate_cons] at hts
      cases hts
  | cons t ts ih =>
    obtain ⟨hseg, hmore⟩ := forall_mem_cons.mp hpipe
    cases seg with
    | nil =>
      cases more with
      | nil => cases hts
      | cons next more =>
        rw [intercalate_nil] at hts
        cases hts
        rw [commandsFrom, ih hmore rfl]
        simp [words]
    | cons t' seg =>
      rw [intercalate_cons] at hts
      cases hts
      rw [mem_cons, not_or] at hseg
      rw [commandsFrom_cons (Ne.symm hseg.1),
        ih (forall_mem_cons.mpr ⟨hseg.2, hmore⟩) rfl, append_assoc]
      rw [words, words, words, ← filterMap_append, singleton_append]

theorem any_fst {o : Option (Bool × Str)} {x : Bool × Str} (hx : x ∈ o.toList) :
    o.any Prod.fst = x.1 := by
  rw [mem_toList] at hx
  rw [mem_def.mp hx, any_some]

theorem lastName_toList (o : Option (Bool × Str)) :
    lastName none o.toList = o.map Prod.snd := by
  cases o <;> rfl

end Commands

/-- The parts of the block a line with the given counts needs. -/
abbrev Count.sizes (st : Count) (s : Str) : Sizes := ⟨st.numCommands, st.totalStrings, s.length⟩

section Pack

variable {heap : Heap} {s : Str} {st : Count} {c : CommandLine} {seg : List Token}
  {more : List (List Token)}

/-- The block before the second pass. -/
theorem ready_start {q : Parsed} (hroom : Room (st.sizes s) s q)
    (hnone : q.stdinFile = 0 ∧ q.stdoutFile = 0)
    (hmem : ∀ i c, s[i]? = some c → byte mem ((st.sizes s).startOfStr + i) = c.toNat)
    (hcmd : 0 < st.numCommands) :
    Ready (st.sizes s) s q ⟨q.withMem (write mem startOfCommands 8
      (q.addr + (st.sizes s).startOfArray)), 0, (st.sizes s).startOfArray⟩ 0 [] [] none none := by
  have hB := (st.sizes s).startOfArray_eq
  have hS := (st.sizes s).startOfStr_eq
  have haddr := hroom.addr
  have hfit : q.addr + (st.sizes s).startOfArray < 2 ^ 64 := by
    rw [Sizes.total] at haddr
    omega
  refine ⟨⟨nofun, ?_, nofun, ?_, hnone.1, hnone.2⟩, rfl, rfl, ?_⟩
  · change read (write mem 32 8 _) (32 + 0) 8 = _
    rw [Nat.add_zero, read_write_self]
    exact Nat.mod_eq_of_lt hfit
  · intro i c _ hc _
    have hafter : startOfCommands + 8 ≤ (st.sizes s).startOfStr := by
      change 32 + 8 ≤ _
      have : (st.sizes s).numCommands = st.numCommands := rfl
      omega
    rw [byte_write, if_neg (by omega)]
    exact hmem i c hc
  · exact ⟨rfl, rfl, rfl, rfl, rfl, rfl⟩

section Final

variable {z : Sizes} {q : Parsed} {f : Fill} {cur : ℕ} {done : List (List Str)}
  {inp out : Option Str} {p : Parsed}

/-- Pointers the pass has made, in the finished block. -/
theorem PointsTo.points (h : PointsTo p.addr p.mem z.startOfStr (z.startOfStr + cur) ptr w)
    (haddr : p.addr ≠ 0) (hsize : z.startOfStr + cur < p.size) : p.Points ptr w := by
  obtain ⟨off, rfl, -, hhi, hstr⟩ := h
  exact ⟨by omega, off, rfl, by omega, hstr⟩

theorem ArgvAt.pointsArgv (h : ArgvAt p.addr p.mem z.startOfStr (z.startOfStr + cur) off ws)
    (haddr : p.addr ≠ 0) (hsize : z.startOfStr + cur < p.size)
    (hoff : off + 8 * (ws.length + 1) ≤ p.size) : p.PointsArgv (p.addr + off) ws :=
  ⟨off, rfl, hoff, fun i w hw => (h.vector i w hw).points haddr hsize, h.ends⟩

theorem NameIn.pointsName (h : NameIn p.addr p.mem z.startOfStr (z.startOfStr + cur) ptr name)
    (haddr : p.addr ≠ 0) (hsize : z.startOfStr + cur < p.size) : p.PointsName ptr name := by
  cases name with
  | none => exact h
  | some w => exact PointsTo.points h haddr hsize

/-- The block after the second pass, when the last vector has been ended. -/
theorem Ready.holds (hroom : Room z s q) (hcur : cur ≤ s.length)
    (h : Ready z s q f cur done ws (c.input.map Prod.snd) (c.output.map Prod.snd))
    (hcommands : done ++ [ws] = c.commands) (hnum : done.length + 1 = z.numCommands)
    (hslots : slots done + ws.length + 1 = z.numCommands + z.totalStrings)
    (haddr : q.addr ≠ 0) (hbg : q.isBackground = c.background)
    (hhere : q.isHereDocument = c.input.any Prod.fst)
    (happend : q.isFileAppend = c.output.any Prod.fst)
    (hcount : q.numCommands = c.commands.length) :
    ∃ p, f.pcmd.store f.argvPtr ptrSize 0 = .ok p ∧ p.Holds c := by
  have hB := z.startOfArray_eq
  have hS := z.startOfStr_eq
  have hsize := h.size_eq hroom
  have hargv : f.argvPtr = z.startOfArray + 8 * slots done + 8 * ws.length := by
    rw [h.argvPtr]
    omega
  let p := f.pcmd.withMem (write f.pcmd.mem f.argvPtr 8 0)
  have hf : Filled z s p cur done ws _ _ :=
    h.filled.write_slot (by omega) (.inr ⟨h.argvPtr.ge, by omega⟩)
  have hp : p.addr ≠ 0 := by
    change f.pcmd.addr ≠ 0
    rw [h.same.addr]
    exact haddr
  have hstr : z.startOfStr + cur < p.size := by
    change _ < f.pcmd.size
    omega
  have hfit : ∀ k us, k + us + 1 ≤ slots done + ws.length + 1 →
      z.startOfArray + 8 * k + 8 * (us + 1) ≤ p.size := by
    intro k us hk
    change _ ≤ f.pcmd.size
    omega
  have hlast : read p.mem (z.startOfArray + 8 * slots done + 8 * ws.length) 8 = 0 := by
    rw [← hargv, read_write_self, Nat.zero_mod]
  refine ⟨p, Parsed.store_eq (show f.argvPtr + 8 ≤ _ by omega), ?_⟩
  refine ⟨h.same.isBackground.trans hbg, h.same.isHereDocument.trans hhere,
    h.same.isFileAppend.trans happend, hf.input.pointsName hp hstr, hf.output.pointsName hp hstr,
    h.same.numCommands.trans hcount, fun i us hus => ?_⟩
  rw [← hcommands] at hus
  rcases getElem?_concat_eq_some hus with hus | ⟨rfl, rfl⟩
  · obtain ⟨k, hk, hread, hat⟩ := hf.finished i us hus
    rw [startOfCommands, hread]
    exact hat.pointsArgv hp hstr (hfit k us.length (by omega))
  · rw [startOfCommands, hf.start]
    exact ArgvAt.pointsArgv ⟨hf.current, hlast⟩ hp hstr (hfit _ us.length (by omega))

end Final

/-- **The second part** of the parser makes a result that holds the command line. -/
theorem pack_holds (htext : Text s ([Token.pipe].intercalate (seg :: more)))
    (hpipe : Pipeline (seg :: more) c) (hst : Count.For st c)
    (hhead : ∀ d ∈ s.head?, isspace d = false) (hnull : 0 ∉ s)
    (hheap : heap.realloc (st.sizes s).total ≠ 0)
    (hfit : heap.realloc (st.sizes s).total + (st.sizes s).total ≤ 2 ^ 64) :
    ∃ p, pack heap c.background s st = .ok p ∧ p.Holds c := by
  let q := newBlock heap (st.sizes s) c.background st
  have hroom : Room (st.sizes s) s q := ⟨rfl, hfit, rfl, hnull⟩
  have hlen := hpipe.length_commands
  have hnum := hst.numCommands
  have htotal : (st.sizes s).total = (st.sizes s).startOfStr + s.length + 1 := rfl
  have hB : (st.sizes s).startOfArray = 32 + 8 * st.numCommands := Sizes.startOfArray_eq _
  have hS := (st.sizes s).startOfStr_eq
  obtain ⟨mem, hcopy, hchars, -⟩ := copyText_spec (p := q)
    (show (st.sizes s).startOfStr + s.length ≤ (st.sizes s).total by omega)
  have hready := ready_start (q := q) hroom ⟨rfl, rfl⟩ hchars (by omega)
  have hleft : Left (st.sizes s) q [] [] ([Token.pipe].intercalate (seg :: more)) := by
    have hpipes := count_intercalate hpipe.noPipe
    refine ⟨?_, ?_, ?_, ?_⟩
    · change 0 + 1 + _ = st.numCommands
      omega
    · have hsum := hst.totalStrings
      rw [hpipe.words_eq, length_flatten, ← hsum]
      change 0 + 0 + 1 + _ + _ = st.numCommands + st.totalStrings
      omega
    · rw [hpipe.inputs_eq]
      exact fun x hx => hst.isHereDocument.trans (any_fst hx)
    · rw [hpipe.outputs_eq]
      exact fun x hx => hst.isFileAppend.trans (any_fst hx)
  have hzero : skipSpace s 0 = 0 := skipWhile_eq_self hhead
  have htext₀ : Text (s.drop 0) ([Token.pipe].intercalate (seg :: more)) := htext
  obtain ⟨f, cur, done, ws, hloop, hcur, hfinal, hcommands⟩ :=
    fillLoop_text hroom htext₀ (Nat.zero_le _) hready hleft (Nat.le_refl _)
  rw [hzero] at hloop
  rw [commandsFrom_intercalate hpipe.noPipe rfl, nil_append, nil_append, ← map_cons,
    hpipe.commands] at hcommands
  rw [hpipe.inputs_eq, hpipe.outputs_eq, lastName_toList, lastName_toList] at hfinal
  have hdone : done.length + 1 = st.numCommands := by
    rw [hnum, ← hcommands, length_append, length_singleton]
  have hslots : slots done + ws.length + 1 = st.numCommands + st.totalStrings := by
    have hsum := slots_eq c.commands
    rw [← hst.totalStrings, ← hnum, ← hcommands, slots_concat] at hsum
    omega
  obtain ⟨p, hstore, hholds⟩ := hfinal.holds hroom hcur hcommands hdone hslots hheap rfl
    hst.isHereDocument hst.isFileAppend hnum
  refine ⟨p, ?_, hholds⟩
  rw [pack, if_neg hheap, hcopy]
  change ((q.withMem mem).store startOfCommands ptrSize _ >>= _) = _
  rw [Parsed.store_eq (show 32 + 8 ≤ (st.sizes s).total by omega)]
  change (fillLoop (st.sizes s) s s.length ⟨q.withMem (write mem startOfCommands 8
    (q.addr + (st.sizes s).startOfArray)), 0, (st.sizes s).startOfArray⟩ 0 >>= _) = _
  rw [hloop]
  exact hstore

end Pack

/-- The allocations of a call succeed: the blocks it asks for are there, and lie in memory. -/
structure Heap.Succeeds (heap : Heap) (line : Str) : Prop where
  calloc : heap.calloc ≠ 0
  realloc : ∀ b s st, measure line = .ok (.commands b s st) →
    heap.realloc (st.sizes s).total ≠ 0 ∧
      heap.realloc (st.sizes s).total + (st.sizes s).total ≤ 2 ^ 64

/-- The result for a line without commands. -/
theorem holds_empty {line : Str} {c : CommandLine} (h : Matches (beforeHash line) c)
    (hnil : c.commands = []) (addr : ℕ) : (Parsed.empty addr .zero).Holds c := by
  obtain ⟨rfl, -⟩ := h.eq_of_nil hnil
  exact ⟨rfl, rfl, rfl, rfl, rfl, rfl, nofun⟩

theorem null_notMem_beforeHash (line : Str) : 0 ∉ beforeHash line := by
  intro h
  have hmem := (takeWhile_sublist _).subset h
  exact absurd (mem_takeWhile_imp hmem) (by decide)

/-- **The parser is right.** It returns a result exactly for the lines whose text before the `#`
is a command line, and the result holds it. No write is outside the block of the result. -/
theorem parseCommand_right {heap : Heap} {line : Str} (hheap : heap.Succeeds line) :
    (∀ c, Matches (beforeHash line) c → ∃ p, parseCommand heap line = .ok p ∧ p.Holds c) ∧
    ((∀ c, ¬Matches (beforeHash line) c) →
      ∃ e, parseCommand heap line = .error (.failed e) ∧ e.code ≠ 0) := by
  constructor
  · intro c hc
    rw [parseCommand, if_neg hheap.calloc]
    by_cases hnil : c.commands = []
    · rw [measure_of_matches_nil hc hnil]
      exact ⟨_, rfl, holds_empty hc hnil _⟩
    · obtain ⟨s, seg, more, st, hmeasure, htext, hpipe, hst, hhead, hmem⟩ :=
        measure_of_matches hc hnil
      obtain ⟨hne, hfit⟩ := hheap.realloc _ s st hmeasure
      have hnull : 0 ∉ s := fun h0 => null_notMem_beforeHash line (hmem 0 h0)
      rw [hmeasure]
      exact pack_holds htext hpipe hst hhead hnull hne hfit
  · intro hnone
    rw [parseCommand, if_neg hheap.calloc]
    cases hmeasure : measure line with
    | ok m =>
      obtain ⟨c, hc⟩ := matches_of_measure hmeasure
      exact absurd hc (hnone c)
    | error e =>
      obtain ⟨e, rfl⟩ := measure_error hmeasure
      exact ⟨e, rfl, by cases e <;> decide⟩

/-- A pipeline with both redirections, in the background. -/
def sortLine : Str := str "sort < in | uniq -c >> out & # counts"

theorem measure_sortLine :
    measure sortLine = .ok (.commands true (str "sort < in | uniq -c >> out ")
      ⟨true, false, 2, 3, true, true, true⟩) := by
  decide +kernel

/-- The line is parsed. -/
theorem parseCommand_right_sortLine :
    Heap.Succeeds ⟨64, fun _ => 4096, 0⟩ sortLine ∧
    ∃ c p, Matches (beforeHash sortLine) c ∧
      parseCommand ⟨64, fun _ => 4096, 0⟩ sortLine = .ok p ∧ p.Holds c := by
  have hheap : Heap.Succeeds ⟨64, fun _ => 4096, 0⟩ sortLine := by
    refine ⟨by decide, fun b s st h => ?_⟩
    rw [measure_sortLine] at h
    cases h
    decide +kernel
  obtain ⟨c, hc⟩ := matches_of_measure measure_sortLine
  obtain ⟨p, hp, hholds⟩ := (parseCommand_right hheap).1 c hc
  exact ⟨hheap, c, p, hc, hp, hholds⟩

end OsPi.Shell
