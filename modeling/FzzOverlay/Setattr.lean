import FzzOverlay.CopyUp.FlagsSpec
import FzzOverlay.File.Write

/-!
# Changing the attributes of a file

`ovl_setattr` of `inode.c` on a regular file. The size is the only attribute that
the data path looks at. It is set on the upper inode alone.
-/

namespace FzzOverlay

open SparseFile

/-- What the rest of the kernel does during `ovl_setattr`. `txtbsy` says that the
real inode is being executed. -/
structure SetattrEnv where
  prepare : Option Errno
  wantWrite : Option Errno
  txtbsy : Bool
  copyUp : CopyUpEnv
  writeAccess : Option Errno
  notify : Option Errno

/-- Nothing fails. -/
def SetattrEnv.full : SetattrEnv := ⟨none, none, false, .full false, none, none⟩

/-- `notify_change` on the upper inode. -/
def OvlFile.notifyChange (f : OvlFile) (size : Option ℕ) : OvlFile :=
  match size with
  | none => f
  | some n => f.setUpperData (f.upperData.truncate n)

/-- `ovl_setattr` from the copy-up on, `size` being the new size under `ATTR_SIZE`. -/
def setattrUpper (env : SetattrEnv) (f : OvlFile) (size : Option ℕ) : ℤ × OvlFile :=
  match size, env.writeAccess with
  | some _, some e => (e.ret, f)
  | _, _ =>
    match env.notify with
    | some e => (e.ret, f)
    | none => (0, (f.notifyChange size).ovlCopyattr)

/-- `ovl_setattr`. -/
def ovlSetattr (env : SetattrEnv) (f : OvlFile) (size : Option ℕ) : Outcome (ℤ × OvlFile) :=
  match env.prepare, env.wantWrite with
  | some e, _ => .ret (e.ret, f)
  | none, some e => .ret (e.ret, f)
  | none, none =>
    if size.isSome && env.txtbsy then .ret (ETXTBSY.ret, f)
    else
      match if size.isSome then ovlCopyUpWithData env.copyUp f
        else ovlCopyUpFlags env.copyUp f 0 with
      | .ret r => if r.1 = 0 then .ret (setattrUpper env r.2 size) else .ret r
      | .oops => .oops
      | .running => .running

/-- A call behind the copy-up fails. -/
def SetattrEnv.FailsLate (env : SetattrEnv) : Prop := env.writeAccess ≠ none ∨ env.notify ≠ none

/-- What a truncation may have done: nothing, a copy-up only, or a copy-up that
succeeded and then the change of the upper size. -/
inductive TruncateCase (env : SetattrEnv) (n : ℕ) (f : OvlFile) : ℤ × OvlFile → Prop
  | refused (ret : ℤ) (hret : ret ≠ 0) : TruncateCase env n f (ret, f)
  | copied (ret cuRet : ℤ) (g : OvlFile) (hret : ret ≠ 0)
      (hcase : CopyUpCase env.copyUp O_WRONLY f (cuRet, g))
      (hlate : cuRet = 0 → env.FailsLate) : TruncateCase env n f (ret, g)
  | truncated (g : OvlFile) (hcase : CopyUpCase env.copyUp O_WRONLY f (0, g)) :
      TruncateCase env n f (0, (g.setUpperData (g.upperData.truncate n)).ovlCopyattr)

theorem setattrUpper_cases (env : SetattrEnv) (g : OvlFile) (n : ℕ) :
    (∃ e : Errno, setattrUpper env g (some n) = (e.ret, g) ∧ env.FailsLate) ∨
      setattrUpper env g (some n) =
        (0, (g.setUpperData (g.upperData.truncate n)).ovlCopyattr) := by
  cases hw : env.writeAccess with
  | some e => exact .inl ⟨e, by simp [setattrUpper, hw], .inl (by simp [hw])⟩
  | none =>
    cases hn : env.notify with
    | some e => exact .inl ⟨e, by simp [setattrUpper, hw, hn], .inr (by simp [hn])⟩
    | none => exact .inr (by simp [setattrUpper, hw, hn, OvlFile.notifyChange])

theorem ovlSetattr_cases (env : SetattrEnv) {f : OvlFile} (hstack : f.lowerstack ≠ []) (n : ℕ) :
    ∃ r, ovlSetattr env f (some n) = .ret r ∧ TruncateCase env n f r := by
  have hfail : ∀ e : Errno, TruncateCase env n f (e.ret, f) :=
    fun e => .refused e.ret (Int.ne_of_lt e.ret_neg)
  rw [ovlSetattr]
  cases env.prepare with
  | some e => exact ⟨_, rfl, hfail e⟩
  | none =>
    cases env.wantWrite with
    | some e => exact ⟨_, rfl, hfail e⟩
    | none =>
      simp only [Option.isSome_some, Bool.true_and, if_true]
      split
      · exact ⟨_, rfl, hfail ETXTBSY⟩
      obtain ⟨⟨ret, g⟩, hr, hcase⟩ := ovlCopyUpFlags_cases env.copyUp hstack O_WRONLY
      rw [ovlCopyUpWithData, hr]
      simp only
      by_cases hret : ret = 0
      · subst hret
        refine ⟨_, if_pos rfl, ?_⟩
        obtain ⟨e, he, hlate⟩ | hok := setattrUpper_cases env g n
        · rw [he]
          exact .copied _ 0 g (Int.ne_of_lt e.ret_neg) hcase fun _ => hlate
        · rw [hok]
          exact .truncated g hcase
      · exact ⟨_, if_neg hret, .copied ret ret g hret hcase fun h => absurd h hret⟩

end FzzOverlay
