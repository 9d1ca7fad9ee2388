import FzzOverlay.Cow.Logical

/-!
# Block copy-on-write refines plain writes

Runs of writes on a file that was copied up, with the logical content carried
along, deliver the logical content on every read.
-/

namespace FzzOverlay

open SparseFile

/-- One `ovl_write_iter` on the file, with the logical content it should have.
`vfs_iter_write` stores the whole request or fails before storing anything. -/
def WriteStep (s : OvlFile × File) (e : WriteEnv × WriteReq) (t : OvlFile × File) : Prop :=
  (e.1.wr 0 = .full ∨ ∃ err, e.1.wr 0 = .fail err) ∧
    ∃ r, ovlWriteIter e.1 s.1 e.2 = .ret r ∧
      t = (r.file, if 0 ≤ r.ret then logicalWrite s.2 e.2 else s.2)

theorem WriteStep.tracks {lower : File} {s t : OvlFile × File} {e : WriteEnv × WriteReq}
    (hmax : lower.size ≤ MAX_COW_SIZE) (h : Tracks lower s.2 s.1) (hs : WriteStep s e t) :
    Tracks lower t.2 t.1 := by
  obtain ⟨henv, r, hr, rfl⟩ := hs
  exact h.write hmax henv hr

/-- A copy-up of a looked-up file that sets up copy-on-write mode. -/
theorem tracks_of_copyUp {lower : File} {old : OvlInode} {env : CopyUpEnv} {flags : ℕ}
    {f : OvlFile} (hmax : lower.size ≤ MAX_COW_SIZE)
    (hcopy : ovlCopyUpFlags env (.lookedUp [lower] old) flags = .ret (0, f))
    (hcow : f.oi.cowStatus = true) : Tracks lower lower f := by
  obtain ⟨h0, addr, linked, rfl⟩ :=
    ovlCopyUpFlags_cow (List.cons_ne_nil lower []) rfl rfl hcopy hcow
  exact (notCopied_lookedUp lower old).tracks_freshCow h0 hmax addr linked

/-- Whenever a read returns, the bytes it delivers are those of the logical
content, in copy-on-write mode and after it. -/
theorem block_cow_refines {lower X : File} {old : OvlInode} {env : CopyUpEnv} {flags : ℕ}
    {f₀ f : OvlFile} {tr : List ((OvlFile × File) × WriteEnv × WriteReq)}
    (hmax : lower.size ≤ 2 ^ 44 - 4096)
    (hcopy : ovlCopyUpFlags env (.lookedUp [lower] old) flags = .ret (0, f₀))
    (hcow : f₀.oi.cowStatus = true) (hrun : Lts.Run WriteStep (f₀, lower) tr (f, X)) :
    ReadsFrom X f := by
  have h : Tracks lower X f :=
    hrun.invariant (I := fun s => Tracks lower s.2 s.1) (tracks_of_copyUp hmax hcopy hcow)
      fun s e t ht hs => hs.tracks hmax ht
  exact h.readsFrom

/-- One byte written in the middle of a three-byte file. -/
theorem block_cow_refines_byte : ∃ f₀ f X tr,
    ovlCopyUpFlags (.full false) (.lookedUp [ofList [1, 2, 3]] zeroInode) 1 = .ret (0, f₀) ∧
      f₀.oi.cowStatus = true ∧ Lts.Run WriteStep (f₀, ofList [1, 2, 3]) tr (f, X) ∧
      X = (ofList [1, 2, 3]).write 1 [9] ∧ ReadsFrom X f := by
  have hstep : ∃ r, ovlWriteIter .full (freshCow (.lookedUp [ofList [1, 2, 3]] zeroInode) 0 true)
      ⟨1, false, [9]⟩ = .ret r ∧ 0 ≤ r.ret := ⟨_, rfl, by decide⟩
  obtain ⟨r, hr, hret⟩ := hstep
  have hwrite : WriteStep (freshCow (.lookedUp [ofList [1, 2, 3]] zeroInode) 0 true,
      ofList [1, 2, 3]) (.full, ⟨1, false, [9]⟩) (r.file, (ofList [1, 2, 3]).write 1 [9]) :=
    ⟨.inl rfl, r, hr, by rw [if_pos hret]; rfl⟩
  have hcopy : ovlCopyUpFlags (.full false) (.lookedUp [ofList [1, 2, 3]] zeroInode) 1 =
      .ret (0, freshCow (.lookedUp [ofList [1, 2, 3]] zeroInode) 0 true) := rfl
  exact ⟨_, _, _, _, hcopy, rfl, .snoc .nil hwrite, rfl,
    block_cow_refines (by decide) hcopy rfl (.snoc .nil hwrite)⟩

end FzzOverlay
