import OsPi.Fs.Undo

/-!
# Clearing an Inode on a Device That May Fail

The functions that free below a pointer block return `-1` once the last block of the inode has
been freed, and `-1` is also what a failing write returns. So `clear_blocks_of_inode` reports
success when a write of the bitmap fails below a pointer block, and does what it reports only for
inodes without pointer blocks.
-/

namespace OsPi

open Comp List

section Clearing

variable {env : Env} {s t u : Fs} {n : Inode} {L : List ℕ} {b x skip : ℕ}

/-- Clearing the bit of another block leaves the block marked. -/
theorem Fs.Marked.clear (h : s.Marked b t) (hx : x < s.layout.totalBlocks) (hne : x ≠ b) (ios : ℕ) :
    s.Marked b ((t.setBlockBit x false).ticked ios) := by
  rw [← h.layout] at hx
  have hch := Fs.Change.setBlockBit h.wf hx false
  have hw := hch.wf h.wf
  refine ⟨⟨hw.layout, hw.length_disk, hw.blockCount_eq⟩, h.layout, h.lt, ?_⟩
  refine (hch.blockBit b (by rw [h.layout]; exact h.lt)).trans ?_
  rw [Function.update_of_ne hne.symm]
  exact h.marked

end Clearing

end OsPi
