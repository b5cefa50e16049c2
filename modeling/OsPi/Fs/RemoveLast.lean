import OsPi.Fs.Release

/-!
# Removing the Last Block

`remove_last_block_inode` on a reliable device, for every size of the inode, undoes an
append: it frees the last data block and the pointer blocks that led to nothing else, and
clears the pointer at the tip of the tree (`Shrunk`).
-/

namespace OsPi

open PtrTree Comp List

variable {env : Env} {s s' : Fs} {n : Inode} {L : List ℕ}

section Level

variable {s₁ : Fs} {n₁ : Inode} {W : List ℕ} {S i q : ℕ} (hS : s.layout.blocksInSinglePtr = S)
  (hw : s.Wf) (hok : s.InodeOk n) (hi : i < 3) (h16 : 16 < n.iBlocks.toNat)
  (hn : n.iBlocks.toNat = treeBase S i + q + 1) (hq : q < S ^ (i + 1))
include hS hi h16 hn hq

include hok

include hw

end Level

/-! ### Running the code -/

theorem Fs.Freed.writeBlock_eval (h : s.Freed s' L) (hr : env.Reliable) (hw : s.Wf) {x : ℕ}
    (hx : x < s.layout.totalBlocks) (data : ℕ) :
    (writeBlock env data x).eval s' = (.ok (), s'.setBlock x data) := by
  refine OsPi.writeBlock_eval hr ?_
  rw [Fs.Change.blockCount h, hw.blockCount_eq]
  exact hx

section Code

variable {S : ℕ} (hS : s.layout.blocksInSinglePtr = S) (hr : env.Reliable) (hw : s.Wf)
  (hok : s.InodeOk n) (h16 : 16 < n.iBlocks.toNat)
include hS hr hw hok h16

end Code

end OsPi
