import FzzOverlay.CopyUp.FlagsSpec
import FzzOverlay.File.FullRead
import FzzOverlay.File.WriteSpec

/-!
# Runs of writes

What every run of writes keeps, whatever the sizes and whatever the kernel does:
the file stays copied up, over the same lower layers.
-/

namespace FzzOverlay

open SparseFile

theorem Updated.upperData_eq {data : File} {f g : OvlFile} (h : Updated data f g)
    (hup : f.upper.isSome) : g.upperData = data := by
  obtain ⟨u, hu⟩ := Option.isSome_iff_exists.mp hup
  rw [OvlFile.upperData, h.upper, hu]
  rfl

theorem Updated.upper_isSome {data : File} {f g : OvlFile} (h : Updated data f g)
    (hup : f.upper.isSome) : g.upper.isSome := by
  rw [h.upper, Option.isSome_map]
  exact hup

/-- Over one lower layer reads and writes open the same lower file. -/
theorem OvlFile.readLower_of_single {f : OvlFile} {lower : File} (hstack : f.lowerstack = [lower])
    (hfirst : f.oi.lowerFile.First) : f.readLower f.oi = lower := by
  rw [OvlFile.readLower]
  split
  · next idx hidx =>
    rw [hfirst idx hidx]
    exact OvlFile.lowerAt_zero_of_single hstack
  · rw [OvlFile.lowerdata, OvlFile.ovlPathLowerdata_of_single hstack]
    exact OvlFile.lowerAt_zero_of_single hstack

/-- One `ovl_write_iter` that returns, in any environment. -/
def Writes (f : OvlFile) (e : WriteEnv × WriteReq) (g : OvlFile) : Prop :=
  ∃ r, ovlWriteIter e.1 f e.2 = .ret r ∧ g = r.file

/-- A file copied up with its data. -/
structure CopiedUp (f : OvlFile) : Prop where
  lowerstack : f.lowerstack ≠ []
  upper : ∃ u, f.upper = some u ∧ u.metacopy = false
  upperdata : f.oi.upperdata = true
  lowerFile : f.oi.lowerFile.First
  map : f.oi.blockStatus.isSome

namespace CopiedUp

variable {f g : OvlFile}

theorem upper_isSome (h : CopiedUp f) : f.upper.isSome := by
  obtain ⟨u, hu, -⟩ := h.upper
  rw [hu]
  rfl

theorem realdata_eq (h : CopiedUp f) : f.ovlInodeRealdata = f.upperData :=
  OvlFile.ovlInodeRealdata_of_upperdata h.upper_isSome h.upperdata

theorem updated {data : File} (h : CopiedUp f) (hfile : Updated data f g)
    (hmap : g.oi.blockStatus.isSome) : CopiedUp g := by
  obtain ⟨u, hu, hmeta⟩ := h.upper
  refine ⟨?_, ?_, hfile.upperdata.trans h.upperdata, hfile.lowerFile, hmap⟩
  · rw [hfile.lowerstack]
    exact h.lowerstack
  · rw [hfile.upper, hu]
    exact ⟨_, rfl, hmeta⟩

/-- Every write that returns leaves the file copied up. -/
theorem writes {e : WriteEnv × WriteReq} (h : CopiedUp f) (hw : Writes f e g) : CopiedUp g := by
  obtain ⟨r, hr, rfl⟩ := hw
  by_cases hdata : e.2.data = []
  · rw [ovlWriteIter, if_pos hdata] at hr
    cases hr
    exact h
  have hsame : SameMap f r.file → r.file.oi.blockStatus.isSome := by
    intro hmap
    rw [hmap.blockStatus]
    exact h.map
  cases hcow : f.oi.cowStatus with
  | true =>
    obtain ⟨m, hm⟩ := Option.isSome_iff_exists.mp h.map
    cases ovlWriteIter_cow h.upper_isSome h.upperdata h.lowerFile hm hcow hdata hr with
    | unprepared data hret hpatch hfile hmap => exact h.updated hfile (hsame hmap)
    | torn n hret hn hfull hfail hfile hmap => exact h.updated hfile (hsame hmap)
    | stored n m' hn hle hfull hfail hret hpos hfile hmark =>
      refine h.updated hfile ?_
      rw [hmark.blockStatus]
      rfl
  | false =>
    obtain ⟨hmap, ⟨-, hfile⟩ | ⟨n, -, -, -, -, -, -, hfile⟩⟩ :=
      ovlWriteIter_plain h.upper_isSome h.upperdata h.lowerFile hcow hdata hr
    · exact h.updated hfile (hsame hmap)
    · exact h.updated hfile (hsame hmap)

end CopiedUp

theorem copiedUp_freshCow {f : OvlFile} (hstack : f.lowerstack ≠ [])
    (hlow : f.oi.lowerFile.First) (addr : ℕ) (linked : Bool) : CopiedUp (freshCow f addr linked) :=
  ⟨hstack, ⟨_, rfl, rfl⟩, rfl, hlow, rfl⟩

/-- A copy-up of a looked-up file that sets up copy-on-write mode. -/
theorem copiedUp_of_copyUp {stack : List File} {old : OvlInode} {env : CopyUpEnv} {flags : ℕ}
    {f : OvlFile} (hstack : stack ≠ [])
    (hcopy : ovlCopyUpFlags env (.lookedUp stack old) flags = .ret (0, f))
    (hcow : f.oi.cowStatus = true) : CopiedUp f := by
  obtain ⟨-, addr, linked, rfl⟩ := ovlCopyUpFlags_cow hstack rfl rfl hcopy hcow
  exact copiedUp_freshCow hstack (show FilePtr.First .null from nofun) addr linked

end FzzOverlay
