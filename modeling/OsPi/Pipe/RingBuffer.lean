import OsPi.Fs.OpenFiles
import OsPi.Lib.Circular

/-!
# The Ring Buffer

A model of `data-structs/ring_buffer.c`: the bytes of a pipe are kept in an array, with pointers to
the first and to the last one that are null when there is none.

`contents` are the bytes in the order in which they were put in. `consume` takes the first of them
and `produce` adds one at the end, which is what the model of pipes in the file system does with a
list. With `removeBack`, which drops the last of them, the buffer is a bounded deque
(`run_eq_bounded`).
-/

namespace OsPi

open Option

/-- `struct RingBuffer`. The pointers are given by the distance from `data`. -/
structure RingBuffer where
  head : Option ℕ
  tail : Option ℕ
  data : ℕ → UInt8
  capacity : ℕ
  size : ℕ

namespace RingBuffer

/-- `create_ring_buffer`. -/
def create (capacity : ℕ) : RingBuffer := ⟨none, none, fun _ => 0, capacity, 0⟩

/-- A pointer moved on by one place. -/
def next (b : RingBuffer) (i : ℕ) : ℕ := if i = b.capacity - 1 then 0 else i + 1

/-- `consume_ring_buffer`. -/
def consume (b : RingBuffer) : Option (UInt8 × RingBuffer) :=
  if b.size = 0 then none
  else
    b.head.map fun head =>
      (b.data head, if b.size - 1 = 0 then { b with head := none, tail := none, size := b.size - 1 }
        else { b with head := some (b.next head), size := b.size - 1 })

/-- The place where `produce_ring_buffer` puts a byte. -/
def place (b : RingBuffer) : ℕ := if b.size = 0 then 0 else b.next (b.tail.getD 0)

/-- `produce_ring_buffer`. -/
def produce (b : RingBuffer) (x : UInt8) : Option RingBuffer :=
  if b.size = b.capacity then none
  else some { b with
    head := if b.size = 0 then some 0 else b.head
    tail := some b.place
    data := Function.update b.data b.place x
    size := b.size + 1 }

/-- A pointer moved back by one place. -/
def prev (b : RingBuffer) (i : ℕ) : ℕ := if i = 0 then b.capacity - 1 else i - 1

/-- `remove_back_ring_buffer`. -/
def removeBack (b : RingBuffer) : Option RingBuffer :=
  if b.size = 0 then none
  else some <|
    if b.size - 1 = 0 then { b with head := none, tail := none, size := b.size - 1 }
    else { b with tail := b.tail.map b.prev, size := b.size - 1 }

/-- What holds of a ring buffer between the calls. -/
structure Wf (b : RingBuffer) : Prop where
  capacity_pos : 0 < b.capacity
  size_le : b.size ≤ b.capacity
  ends : 0 < b.size → ∃ head < b.capacity, b.head = some head ∧
    b.tail = some ((head + (b.size - 1)) % b.capacity)

/-- The bytes in the buffer, the oldest first. -/
def contents (b : RingBuffer) : List UInt8 :=
  Circular.read b.data b.capacity (b.head.getD 0) b.size

variable {b : RingBuffer} {x : UInt8} {rest : List UInt8}

@[simp] theorem length_contents : b.contents.length = b.size := Circular.length_read

theorem wf_create {capacity : ℕ} (h : 0 < capacity) : (create capacity).Wf :=
  ⟨h, Nat.zero_le _, fun hsize => absurd hsize (Nat.lt_irrefl 0)⟩

theorem consume_nil (h : b.contents = []) : b.consume = none := by
  have hsize : b.size = 0 := by rw [← length_contents, h, List.length_nil]
  rw [consume, if_pos hsize]

/-- The oldest byte is consumed. -/
theorem consume_cons (hwf : b.Wf) (h : b.contents = x :: rest) :
    ∃ b', b.consume = some (x, b') ∧ b'.Wf ∧ b'.contents = rest ∧ b'.capacity = b.capacity := by
  have hsize : b.size = rest.length + 1 := by rw [← length_contents, h, List.length_cons]
  obtain ⟨head, hlt, hhead, htail⟩ := hwf.ends (by omega)
  have hread : Circular.read b.data b.capacity head (rest.length + 1) = x :: rest := by
    rw [← hsize, ← h, contents, hhead, getD_some]
  rw [Circular.read_succ hlt] at hread
  obtain ⟨hx, hrest⟩ := List.cons.inj hread
  rw [consume, if_neg (by omega), hhead, map_some, hx]
  by_cases hlast : b.size - 1 = 0
  · rw [if_pos hlast]
    have hnil : rest = [] := List.length_eq_zero_iff.mp (by omega)
    refine ⟨_, rfl, ⟨hwf.capacity_pos, by dsimp only; omega, fun hpos => ?_⟩, ?_, rfl⟩
    · dsimp only at hpos
      omega
    · rw [contents, hlast, hnil, Circular.read_zero]
  · rw [if_neg hlast]
    refine ⟨_, rfl, ⟨hwf.capacity_pos, ?_, fun _ => ?_⟩, ?_, rfl⟩
    · have hle := hwf.size_le
      dsimp only
      omega
    · refine ⟨(head + 1) % b.capacity, Nat.mod_lt _ hwf.capacity_pos, ?_, ?_⟩
      · exact congrArg some (Circular.next_eq hlt)
      · dsimp only
        rw [htail, Nat.mod_add_mod]
        congr 2
        omega
    · rw [contents, getD_some, next, Circular.next_eq hlt, ← hrest]
      dsimp only
      rw [hsize, Nat.add_sub_cancel]

theorem produce_full (h : b.size = b.capacity) : b.produce x = none := by
  rw [produce, if_pos h]

/-- A byte is put behind the others, unless the buffer is full. -/
theorem produce_append (hwf : b.Wf) (h : b.size ≠ b.capacity) (x : UInt8) :
    ∃ b', b.produce x = some b' ∧ b'.Wf ∧ b'.contents = b.contents ++ [x] ∧
      b'.capacity = b.capacity := by
  have hlt : b.size < b.capacity := lt_of_le_of_ne hwf.size_le h
  rw [produce, if_neg h]
  by_cases hsize : b.size = 0
  · have hplace : b.place = (0 + b.size) % b.capacity := by
      rw [place, if_pos hsize, hsize, Nat.zero_mod]
    refine ⟨_, rfl, ⟨hwf.capacity_pos, by dsimp only; omega, fun _ => ?_⟩, ?_, rfl⟩
    · refine ⟨0, hwf.capacity_pos, ?_, ?_⟩
      · dsimp only
        rw [if_pos hsize]
      · dsimp only
        rw [hplace, Nat.add_sub_cancel]
    · rw [contents, if_pos hsize, getD_some, hplace, Circular.read_update hlt, contents,
        hsize, Circular.read_zero, Circular.read_zero]
  · obtain ⟨head, hhead_lt, hhead, htail⟩ := hwf.ends (by omega)
    have hplace : b.place = (head + b.size) % b.capacity := by
      rw [place, if_neg hsize, htail, getD_some, next,
        Circular.next_eq (Nat.mod_lt _ hwf.capacity_pos), Nat.mod_add_mod]
      congr 1
      omega
    refine ⟨_, rfl, ⟨hwf.capacity_pos, by dsimp only; omega, fun _ => ?_⟩, ?_, rfl⟩
    · refine ⟨head, hhead_lt, ?_, ?_⟩
      · dsimp only
        rw [if_neg hsize, hhead]
      · dsimp only
        rw [hplace, Nat.add_sub_cancel]
    · rw [contents, if_neg hsize, hhead, getD_some, hplace, Circular.read_update hlt,
        contents, hhead, getD_some]

theorem removeBack_nil (h : b.size = 0) : b.removeBack = none := by
  rw [removeBack, if_pos h]

theorem prev_next (i : ℕ) : b.prev (b.next i) = i := by
  by_cases hi : i = b.capacity - 1
  · rw [next, if_pos hi, prev, if_pos rfl, hi]
  · rw [next, if_neg hi, prev, if_neg (Nat.succ_ne_zero i), Nat.add_sub_cancel]

/-- The youngest byte is removed. -/
theorem removeBack_dropLast (hwf : b.Wf) (h : b.size ≠ 0) :
    ∃ b', b.removeBack = some b' ∧ b'.Wf ∧ b'.contents = b.contents.dropLast ∧
      b'.capacity = b.capacity := by
  obtain ⟨head, hlt, hhead, htail⟩ := hwf.ends (by omega)
  have hle := hwf.size_le
  have hcontents : Circular.read b.data b.capacity head (b.size - 1) = b.contents.dropLast := by
    rw [contents, hhead, getD_some, ← Circular.dropLast_read, Nat.sub_add_cancel (by omega)]
  rw [removeBack, if_neg h]
  by_cases hlast : b.size - 1 = 0
  · rw [if_pos hlast]
    refine ⟨_, rfl, ⟨hwf.capacity_pos, by dsimp only; omega, fun hpos => ?_⟩, ?_, rfl⟩
    · dsimp only at hpos
      omega
    · rw [← hcontents, contents, hlast, Circular.read_zero, Circular.read_zero]
  · rw [if_neg hlast]
    refine ⟨_, rfl, ⟨hwf.capacity_pos, by dsimp only; omega, fun _ => ⟨head, hlt, hhead, ?_⟩⟩, ?_,
      rfl⟩
    · -- the place before the last byte
      have hnext : (head + (b.size - 1)) % b.capacity =
          b.next ((head + (b.size - 1 - 1)) % b.capacity) := by
        rw [next, Circular.next_eq (Nat.mod_lt _ hwf.capacity_pos), Nat.mod_add_mod, Nat.add_assoc,
          Nat.sub_add_cancel (by omega)]
      dsimp only
      rw [htail, map_some, hnext, prev_next]
    · rw [← hcontents, contents, hhead, getD_some]

/-! ### Runs -/

/-- The calls. -/
inductive Call
  | produce (x : UInt8)
  | consume
  | removeBack

/-- What a call gives: nothing when it fails, and otherwise the byte that it takes, if it does. -/
def call (b : RingBuffer) : Call → Option (Option UInt8) × RingBuffer
  | .produce x => (b.produce x).elim (none, b) fun b' => (some none, b')
  | .consume => b.consume.elim (none, b) fun r => (some (some r.1), r.2)
  | .removeBack => b.removeBack.elim (none, b) fun b' => (some none, b')

/-- What a call should give for a list that has no more than `capacity` elements. -/
def boundedCall (capacity : ℕ) (l : List UInt8) : Call → Option (Option UInt8) × List UInt8
  | .produce x => if l.length = capacity then (none, l) else (some none, l ++ [x])
  | .consume => l.head?.elim (none, l) fun x => (some (some x), l.tail)
  | .removeBack => if l = [] then (none, l) else (some none, l.dropLast)

/-- What calls give, and what is left behind. -/
def run {σ : Type} (f : σ → Call → Option (Option UInt8) × σ) :
    σ → List Call → List (Option (Option UInt8)) × σ
  | s, [] => ([], s)
  | s, c :: cs => ((f s c).1 :: (run f (f s c).2 cs).1, (run f (f s c).2 cs).2)

theorem call_eq (hwf : b.Wf) (c : Call) :
    (b.call c).1 = (boundedCall b.capacity b.contents c).1 ∧
      (b.call c).2.contents = (boundedCall b.capacity b.contents c).2 ∧
      (b.call c).2.Wf ∧ (b.call c).2.capacity = b.capacity := by
  cases c with
  | produce x =>
    by_cases hfull : b.size = b.capacity
    · simp [call, boundedCall, produce_full, hfull, hwf]
    · obtain ⟨b', hb', hwf', hcontents, hcap⟩ := produce_append hwf hfull x
      simp [call, boundedCall, hb', hfull, hwf', hcontents, hcap]
  | consume =>
    cases h : b.contents with
    | nil => simp [call, boundedCall, consume_nil h, h, hwf]
    | cons x rest =>
      obtain ⟨b', hb', hwf', hcontents, hcap⟩ := consume_cons hwf h
      simp [call, boundedCall, hb', hwf', hcontents, hcap]
  | removeBack =>
    have hnil : b.contents = [] ↔ b.size = 0 := by
      rw [← List.length_eq_zero_iff, length_contents]
    by_cases hempty : b.size = 0
    · simp [call, boundedCall, removeBack_nil, hempty, hnil, hwf]
    · obtain ⟨b', hb', hwf', hcontents, hcap⟩ := removeBack_dropLast hwf hempty
      simp [call, boundedCall, hb', hnil, hempty, hwf', hcontents, hcap]

/-- **A ring buffer is a bounded deque**: the calls give what they give for a list, its contents are
the list, and the pointers point into the array when there is something in it. -/
theorem run_eq_bounded {capacity : ℕ} (h : 1 ≤ capacity) (cs : List Call) :
    let b := (run call (create capacity) cs).2
    let l := (run (boundedCall capacity) [] cs).2
    (run call (create capacity) cs).1 = (run (boundedCall capacity) [] cs).1 ∧ b.contents = l ∧
      (l ≠ [] → ∃ head < capacity, ∃ tail < capacity, b.head = some head ∧ b.tail = some tail) := by
  have hrun : ∀ b : RingBuffer, b.Wf → b.capacity = capacity →
      (run call b cs).1 = (run (boundedCall capacity) b.contents cs).1 ∧
      (run call b cs).2.contents = (run (boundedCall capacity) b.contents cs).2 ∧
      (run call b cs).2.Wf ∧ (run call b cs).2.capacity = capacity := by
    induction cs with
    | nil => exact fun b hwf hcap => ⟨rfl, rfl, hwf, hcap⟩
    | cons c cs ih =>
      intro b hwf hcap
      obtain ⟨hres, hcontents, hwf', hcap'⟩ := call_eq hwf c
      rw [hcap] at hres hcontents hcap'
      obtain ⟨hress, hlater⟩ := ih _ hwf' hcap'
      rw [hcontents] at hress hlater
      exact ⟨List.cons_eq_cons.mpr ⟨hres, hress⟩, hlater⟩
  obtain ⟨hres, hcontents, hwf, hcap⟩ := hrun _ (wf_create h) rfl
  refine ⟨hres, hcontents, fun hne => ?_⟩
  have hpos : 0 < (run call (create capacity) cs).2.size := by
    rw [← length_contents, hcontents]
    exact List.length_pos_iff.mpr hne
  obtain ⟨head, hlt, hhead, htail⟩ := hwf.ends hpos
  rw [hcap] at hlt htail
  exact ⟨head, hlt, _, Nat.mod_lt _ h, hhead, htail⟩

/-- A buffer of two bytes: one is put in and taken out, and then the front wraps around. -/
theorem run_eq_bounded_two :
    1 ≤ 2 ∧ (run call (create 2) [.produce 1, .produce 2, .produce 3, .consume, .produce 4,
      .removeBack]).1 = [some none, some none, none, some (some 1), some none, some none] :=
  ⟨by decide, (run_eq_bounded (by decide) _).1⟩

end RingBuffer

end OsPi
