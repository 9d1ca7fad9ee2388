import FzzOverlay.Super.FillSuperSpec

/-!
# Mounts and their layers

The layers of a mount are looked up and checked against each other, and a mount that fails
is undone, up to one trap.

## Main definitions

- `Formed` — the directories of a mount before its layers are checked
- `Layered` — what a mount that succeeds ends with
- `Restored` — what `ovl_free_fs` leaves
- `failed_mount_restores` — a mount that fails, or is unmounted, is undone
-/

namespace FzzOverlay

open Act

section Layers

variable {δ σ ν : Type} {env : MountEnv δ σ ν} {c : OvlConfig} {s₀ s : MountState δ σ}
  {seen : List δ} {m m' : Mounting δ σ} {checked : Bool}

/-- The parts of `ovl_get_fsid` that a mount may be left with. -/
inductive FsidCase (env : MountEnv δ σ ν) (m : Mounting δ σ) (sb : σ) : OvlFs σ → Prop
  | known : FsidCase env m sb (m.ofs env)
  | clash (fs : List (OvlSb σ)) :
      FsidCase env m sb { m.ofs env with index := false, nfsExport := false, lowerFs := fs }
  | added (dev : ℕ) (huuid : m.usesHandles → ∀ f ∈ m.lowerFs, env.uuid f.sb ≠ env.uuid sb) :
      FsidCase env m sb { m.ofs env with lowerFs := m.lowerFs ++ [⟨sb, dev⟩] }

/-- A layer on a new filesystem whose uuid is taken costs the index and NFS export. -/
theorem Settled.withFsid {ofs : OvlFs σ} {sb : σ} (h : Settled env c seen m)
    (hofs : FsidCase env m sb ofs) : Settled env c seen (m.withOfs ofs) := by
  cases hofs with
  | known => exact { h with }
  | clash fs =>
    have hunused : ¬ Mounting.usesHandles
        (m.withOfs { m.ofs env with index := false, nfsExport := false, lowerFs := fs }) := by
      rintro (hn | ⟨hi, -⟩)
      · cases hn
      · cases hi
    exact { h with
      rest := h.rest
      index := fun hi => by cases hi
      noxattr := fun hn => ⟨rfl, (h.noxattr hn).2⟩
      xino := h.xino
      handles := fun hu => absurd hu hunused
      uuid := fun hu => absurd hu hunused }
  | added dev huuid =>
    refine { h with uuid := fun hu => ?_ }
    refine List.pairwise_append.mpr ⟨h.uuid hu, List.pairwise_singleton _ _, fun f hf g hg => ?_⟩
    rw [List.mem_singleton.mp hg]
    exact huuid hu f hf

theorem sameDirs_withFsid {ofs : OvlFs σ} {sb : σ} (h : FsidCase env m sb ofs) :
    SameDirs m (m.withOfs ofs) := by
  refine ⟨⟨rfl, rfl, rfl, rfl⟩, rfl, rfl, rfl, rfl, rfl, rfl, rfl, rfl, fun hi => ?_,
    fun hn => ?_, ?_⟩
  · cases h with
    | known => exact hi
    | clash fs => cases hi
    | added dev huuid => exact hi
  · cases h with
    | known => exact hn
    | clash fs => cases hn
    | added dev huuid => exact hn
  · cases h <;> rfl

/-- A directory without a trap is not one the mount has marked. -/
theorem Ready.holds_eq_false [DecidableEq δ] (h : Ready env checked m) {d : δ}
    (hd : d ∉ m.trapsOf) : m.holds d = false := by
  refine eq_false_of_ne_true fun hholds => hd ?_
  simp only [Mounting.holds, Bool.or_eq_true, Bool.and_eq_true, decide_eq_true_eq] at hholds
  obtain ⟨-, hu⟩ | ⟨-, hw⟩ := hholds
  · simp [Mounting.trapsOf, h.upperTrap d hu]
  · simp [Mounting.trapsOf, h.workTrap d hw]

/-- A mount whose index directory is set up, if it has one. -/
structure Formed (env : MountEnv δ σ ν) (m : Mounting δ σ) : Prop where
  given : m.config.upperdir.isSome = true → m.upper.isSome = true
  upperTrap : ∀ u, m.upper = some u → m.upperdirTrap = some u
  workTrap : ∀ w, m.workbasedir = some w → m.workbasedirTrap = some w
  base : m.upper = none → m.workbasedir = none
  handles : m.config.index = true → ∀ w, m.workdir = some w → env.fhType (env.sb w) ≠ .none
  rdonly : m.forceReadonly = true → m.rdonly = true
  nofollow : m.config.nfsExport = true → m.config.upperdir = none →
    m.config.redirectFollow = false
  indexdir : m.indexdir.isSome = true → m.config.index = true ∧ m.forceReadonly = false
  named : m.config.upperdir.isSome = true → m.config.workdir.isSome = true

variable [DecidableEq δ]

theorem triple_ovlLowerDir {path : Except Errno δ} (hpath : path ∈ env.lowerPaths) :
    Triple (fun s => MountInv env c s₀ seen s ∧ Ready env checked s.fs) (ovlLowerDir env path)
      (fun d s => MountInv env c s₀ (seen ++ [d]) s ∧ Ready env checked s.fs)
      (MountFailed env s₀) := by
  refine (triple_ovlMountDirNoesc _ fun s hs => hs.1.failed).bind fun d => ?_
  refine .assuming (fun s hs => hs.2) fun hd => .mono
    (P := fun s => MountInv env c s₀ seen s ∧ Ready env checked s.fs) ?_ (fun s hs => hs.1)
    fun _ _ h => h
  rw [hd] at hpath
  refine (triple_ovlCheckNamelen d (fun s hs => hs.1.failed) fun s n hs => ?_).bind fun _ => ?_
  · exact ⟨hs.1.setFs ⟨rfl, rfl, rfl, rfl⟩ rfl { hs.1.settled with }, { hs.2 with }⟩
  have hK : ∀ m m', SameDirs m m' → Ready env checked m → Ready env checked m' :=
    fun _ _ hm hr => hr.options hm
  refine Triple.bind (triple_setOptions (fun m => ?_) (fun m h _ => { h with }) hK) fun _ => ?_
  · exact ⟨⟨rfl, rfl, rfl, rfl⟩, rfl, rfl, rfl, rfl, rfl, rfl, rfl, rfl, id, id, rfl⟩
  refine Triple.bind (Q := fun _ s => MountInv env c s₀ (seen ++ [d]) s ∧ Ready env checked s.fs)
    (triple_setOptions (fun m => (givesUp_dropHandles env d).sameDirs m)
      (fun m h _ => h.dropHandles hpath) hK) fun _ => ?_
  refine Triple.bind (.doIf fun _ => triple_setOptions (fun m => ?_) (fun m h _ => ?_) hK)
    fun _ => .pure fun _ h => h
  · exact ⟨⟨rfl, rfl, rfl, rfl⟩, rfl, rfl, rfl, rfl, rfl, rfl, rfl, rfl, id, id, rfl⟩
  · exact { h with xino := fun hx => absurd rfl hx }

theorem triple_lowerDirs {paths : List (Except Errno δ)} (hpaths : paths ⊆ env.lowerPaths) :
    Triple (fun s => MountInv env c s₀ seen s ∧ Ready env checked s.fs) (lowerDirs env paths)
      (fun ds s => MountInv env c s₀ (seen ++ ds) s ∧ Ready env checked s.fs)
      (MountFailed env s₀) := by
  induction paths generalizing seen with
  | nil => exact .pure fun s hs => by rwa [List.append_nil]
  | cons path paths ih =>
    obtain ⟨hpath, hpaths⟩ := List.cons_subset.mp hpaths
    refine (triple_ovlLowerDir hpath).bind fun d => (ih hpaths).bind fun ds => .pure fun s hs => ?_
    rwa [List.append_assoc, List.singleton_append] at hs

theorem triple_ovlGetIndexdir :
    Triple (fun s => (MountInv env c s₀ seen s ∧ Ready env true s.fs) ∧
      s.fs.forceReadonly = false ∧ s.fs.config.index = true) (ovlGetIndexdir env)
      (fun _ s => (MountInv env c s₀ seen s ∧ Ready env true { s.fs with
        indexdir := none, indexdirTrap := none }) ∧
          s.fs.forceReadonly = false ∧ s.fs.config.index = true) (MountFailed env s₀) := by
  refine (triple_mountCall _ fun s hs => hs.1.1.failed).bind fun _ => ?_
  refine (triple_mountCall _ fun s hs => hs.1.1.failed).bind fun _ => ?_
  refine (triple_setFs (Q := fun s => (MountInv env c s₀ seen s ∧ Ready env true { s.fs with
    indexdir := none, indexdirTrap := none }) ∧ (s.fs.forceReadonly = false ∧
      s.fs.config.index = true) ∧ s.fs.indexdirTrap = none) fun s hs => ?_).bind fun _ => ?_
  · exact ⟨⟨hs.1.1.setFs ⟨rfl, rfl, rfl, rfl⟩ rfl { hs.1.1.settled with },
      { hs.1.2 with indexdir := rfl, indexTrap := rfl }⟩, hs.2, hs.1.2.indexTrap⟩
  cases env.indexdir with
  | none => exact .pure fun s hs => ⟨hs.1, hs.2.1⟩
  | some d =>
    refine (triple_ovlSetupTrap (Q := fun s => (MountInv env c s₀ seen s ∧
      Ready env true { s.fs with indexdir := none, indexdirTrap := none }) ∧
        s.fs.forceReadonly = false ∧ s.fs.config.index = true) .indexTrap d
      (fun s hs => hs.1.1.failed) fun s hs hd => ?_).bind fun _ => ?_
    · exact ⟨⟨hs.1.1.addTrap hd ⟨rfl, rfl, rfl, rfl⟩ (Mounting.trapsOf_index hs.2.2 d)
        { hs.1.1.settled with }, { hs.1.2 with }⟩, hs.2.1⟩
    refine (triple_mountCall _ fun s hs => hs.1.1.failed).bind fun _ => ?_
    exact triple_mountCall _ fun s hs => hs.1.1.failed

theorem triple_fillIndex :
    Triple (fun s => MountInv env c s₀ seen s ∧ Ready env true s.fs) (fillIndex env)
      (fun _ s => MountInv env c s₀ seen s ∧ Formed env s.fs) (MountFailed env s₀) := by
  refine (triple_setFs (Q := fun s => (MountInv env c s₀ seen s ∧ Ready env true s.fs) ∧
    (s.fs.upper = none → s.fs.rdonly = true)) fun s hs => ?_).bind fun _ => ?_
  · refine ⟨⟨hs.1.setFs ⟨rfl, rfl, rfl, rfl⟩ rfl { hs.1.settled with }, { hs.2 with
      rdonly := fun hu hw => ?_ }⟩, fun hu => ?_⟩
    · change (s.fs.rdonly || s.fs.upper.isNone) = true
      rw [hs.2.rdonly hu hw, Bool.true_or]
    · change (s.fs.rdonly || s.fs.upper.isNone) = true
      rw [show s.fs.upper = none from hu]
      simp
  refine Triple.bind .get fun a => .ite (fun ha => ?_) fun ha => .pure fun s hs => ?_
  · rw [Bool.and_eq_true, Bool.not_eq_true'] at ha
    refine Triple.bind (.mono (P := fun s => (MountInv env c s₀ seen s ∧ Ready env true s.fs) ∧
      s.fs.forceReadonly = false ∧ s.fs.config.index = true) triple_ovlGetIndexdir (fun s hs => ?_)
        fun _ _ h => h) fun _ => triple_setFs fun s hs => ?_
    · obtain ⟨⟨h, -⟩, rfl⟩ := hs
      exact ⟨h, ha⟩
    · obtain ⟨⟨hinv, hready⟩, hforce, hindex⟩ := hs
      split
      · refine ⟨hinv.setFs ⟨rfl, rfl, rfl, rfl⟩ rfl { hinv.settled with }, hready.given,
          hready.upperTrap, hready.workTrap, hready.base, (fun _ w hw => by cases hw),
          fun _ => rfl, hready.nofollow rfl, fun hsome => ?_, hready.named⟩
        simp_all
      · exact ⟨hinv, hready.given, hready.upperTrap, hready.workTrap, hready.base, hready.handles,
          fun hf => absurd (hforce.symm.trans hf) (by simp), hready.nofollow rfl,
          fun _ => ⟨hindex, hforce⟩, hready.named⟩
  · obtain ⟨⟨⟨hinv, hready⟩, hro⟩, rfl⟩ := hs
    refine ⟨hinv, hready.given, hready.upperTrap, hready.workTrap, hready.base, hready.handles,
      fun hf => ?_, hready.nofollow rfl, fun hsome => ?_, hready.named⟩
    · cases hup : a.fs.upper with
      | none => exact hro hup
      | some u =>
        refine hready.rdonly (by simp [hup]) ?_
        simpa [Mounting.forceReadonly, hup] using hf
    · simp [hready.indexdir] at hsome

variable [DecidableEq σ] [DecidableEq ν]

omit [DecidableEq δ] in
theorem fsidCase (env : MountEnv δ σ ν) (m : Mounting δ σ) (bdev : Except Errno ℕ) (sb : σ) :
    FsidCase env m sb (ovlGetFsid env.uuid bdev (m.ofs env) sb).2 := by
  unfold ovlGetFsid
  split
  · exact .known
  · split
    · exact .known
    · cases hok : ovlLowerUuidOk env.uuid (m.ofs env) sb with
      | false =>
        rw [if_neg Bool.false_ne_true]
        cases bdev with
        | error e => exact .clash m.lowerFs
        | ok dev => exact .clash (m.lowerFs ++ [⟨sb, dev⟩])
      | true =>
        rw [if_pos rfl]
        cases bdev with
        | error e => exact .known
        | ok dev =>
          refine .added dev fun hu f hf => ?_
          unfold ovlLowerUuidOk at hok
          split at hok
          · next hnone =>
            exfalso
            simp only [Mounting.ofs, Option.isSome_map, Bool.and_eq_true, Bool.not_eq_true',
              Bool.and_eq_false_iff] at hnone
            obtain hn | ⟨hi, hs⟩ := hu
            · exact Bool.false_ne_true (hnone.1.symm.trans hn)
            · obtain h | h := hnone.2
              · exact Bool.false_ne_true (h.symm.trans hi)
              · exact Bool.false_ne_true (h.symm.trans hs)
          · exact of_decide_eq_true (List.all_eq_true.mp hok f hf)

theorem triple_getFsid (i : ℕ) (d : δ) :
    Triple (fun s => MountInv env c s₀ seen s ∧ Ready env checked s.fs) (getFsid env i d)
      (fun _ s => MountInv env c s₀ seen s ∧ Ready env checked s.fs) (MountFailed env s₀) := by
  refine Triple.bind .get fun a => ?_
  refine (triple_setFs (Q := fun s => MountInv env c s₀ seen s ∧ Ready env checked s.fs)
    fun s hs => ?_).bind fun _ => ?_
  · obtain ⟨hs, rfl⟩ := hs
    have hcase := fsidCase env a.fs (env.bdev i) (env.sb d)
    exact ⟨hs.1.options (sameDirs_withFsid hcase) (hs.1.settled.withFsid hcase),
      hs.2.options (sameDirs_withFsid hcase)⟩
  · split
    · exact .ite (fun _ => .fail fun s hs => hs.1.failed) fun _ => .pure fun _ h => h
    · exact .pure fun _ h => h

/-- A layer is added, unless its root is in use with the index on. -/
theorem triple_getLowerLayer (i : ℕ) {d : δ} (hd : d ∈ seen) :
    Triple (fun s => MountInv env c s₀ seen s ∧ Ready env checked s.fs) (getLowerLayer env i d)
      (fun _ s => MountInv env c s₀ seen s ∧ Ready env checked s.fs) (MountFailed env s₀) := by
  -- the trap is there, and the mount does not refer to it yet
  let T := fun s => ∃ s', (MountInv env c s₀ seen s' ∧ Ready env checked s'.fs) ∧ d ∉ s'.traps ∧
    s = { s' with traps := d :: s'.traps }
  refine (triple_getFsid i d).bind fun fsid => ?_
  refine (triple_ovlGetTrapInode (Q := T) _ d (fun s hs => hs.1.failed) fun s hs hd =>
    ⟨s, hs, hd, rfl⟩).bind fun _ => ?_
  refine Triple.bind .get fun a => Triple.bind (.doIf fun ha =>
    (triple_ovlReportInUse ?_).mono (fun _ h => h) fun _ _ h => h.1) fun _ => ?_
  · rintro _ ⟨⟨s, ⟨hinv, hready⟩, hnew, rfl⟩, rfl⟩ hi
    refine ⟨hinv.marks.congr _ ⟨rfl, rfl, rfl, rfl⟩, some d, hinv.traps.cons d, fun d' hd' => ?_⟩
    obtain rfl : d = d' := Option.some.inj hd'
    have hmark := hinv.marks.inuse d
    rw [hready.holds_eq_false fun hd => hnew (hinv.traps.mem_iff.mpr hd), Bool.or_false] at hmark
    exact ⟨hinv.settled.found d hd, hmark ▸ ha, hi⟩
  refine Triple.bind (.onError (triple_mountCall _ (E := T) fun s hs => hs.1) ?_) fun _ => ?_
  · refine .modify fun _ hs => ?_
    obtain ⟨s, ⟨hinv, -⟩, -, rfl⟩ := hs
    refine ⟨hinv.marks.congr _ ⟨rfl, rfl, rfl, rfl⟩, none, ?_, fun d hd => by cases hd⟩
    change ((d :: s.traps).erase d).Perm s.fs.trapsOf
    rw [List.erase_cons_head]
    exact hinv.traps
  · refine triple_setFs fun _ hs => ?_
    obtain ⟨⟨s, ⟨hinv, hready⟩, hnew, rfl⟩, -⟩ := hs
    refine ⟨hinv.addTrap hnew ⟨rfl, rfl, rfl, rfl⟩ (Mounting.trapsOf_lower d _)
      { hinv.settled with roots := ?_ }, { hready with }⟩
    exact List.append_subset.mpr ⟨hinv.settled.roots, by simpa using hd⟩

theorem triple_lowerLayersFrom (i : ℕ) {stack : List δ} (hstack : stack ⊆ seen) :
    Triple (fun s => MountInv env c s₀ seen s ∧ Ready env checked s.fs)
      (lowerLayersFrom env i stack)
      (fun _ s => MountInv env c s₀ seen s ∧ Ready env checked s.fs) (MountFailed env s₀) := by
  induction stack generalizing i with
  | nil => exact .pure fun _ h => h
  | cons d stack ih =>
    rw [List.cons_subset] at hstack
    exact (triple_getLowerLayer i hstack.1).bind fun _ => ih (i + 1) hstack.2

theorem triple_getLowerLayers {stack : List δ} (hstack : stack ⊆ seen) :
    Triple (fun s => MountInv env c s₀ seen s ∧ Ready env checked s.fs) (getLowerLayers env stack)
      (fun _ s => MountInv env c s₀ seen s ∧ Ready env checked s.fs) (MountFailed env s₀) := by
  refine (triple_mountCall _ fun s hs => hs.1.failed).bind fun _ => ?_
  refine (triple_lowerLayersFrom 0 hstack).bind fun _ => ?_
  refine triple_setOptions (fun m => ?_) (fun m h _ => ?_) fun _ _ hm hr => hr.options hm
  · have hkeep : (setXinoBits (m.ofs env)).index = m.config.index ∧
        (setXinoBits (m.ofs env)).nfsExport = m.config.nfsExport := by
      unfold setXinoBits
      split_ifs <;> exact ⟨rfl, rfl⟩
    exact ⟨⟨rfl, rfl, rfl, rfl⟩, rfl, rfl, rfl, rfl, rfl, rfl, rfl, rfl, fun hi => hkeep.1 ▸ hi,
      fun hn => hkeep.2 ▸ hn, rfl⟩
  · unfold setXinoBits
    split
    · exact { h with xino := fun hx => absurd rfl hx }
    · split
      · next hon =>
        refine { h with xino := fun _ => ?_ }
        change m.config.xino ≠ .off
        rw [show m.config.xino = .on from hon.1]
        decide
      · exact { h with }

theorem triple_ovlGetLowerstack :
    Triple (fun s => MountInv env c s₀ [] s ∧ Ready env false s.fs) (ovlGetLowerstack env)
      (fun _ s => ∃ seen, MountInv env c s₀ seen s ∧ Ready env true s.fs) (MountFailed env s₀) := by
  refine (triple_mountCall _ fun s hs => hs.1.failed).bind fun _ => ?_
  refine Triple.bind (.ensure fun s hs => hs.1.failed) fun _ => ?_
  refine Triple.bind .get fun a => Triple.bind (.ensure fun s hs => hs.1.1.1.failed) fun _ => ?_
  refine Triple.mono (P := fun s => MountInv env c s₀ [] s ∧ Ready env false s.fs) ?_
    (fun s hs => hs.1.1.1) fun _ _ h => h
  refine Triple.bind (Q := fun _ s => MountInv env c s₀ [] s ∧ Ready env true s.fs)
    (triple_setConfig ?_ fun m hm hr => ?_) fun _ => ?_
  · refine ⟨fun c => ?_, fun c => ?_, fun c => ?_, fun c => ?_, fun c => ?_⟩ <;> split_ifs <;>
      simp [OvlConfig.rest]
  · have hr' := hr.options hm
    refine { hr' with nofollow := fun _ hn hu => ?_ }
    revert hn hu
    dsimp only
    split
    · exact fun hn => by cases hn
    · next hcond =>
      intro hn hu
      simpa [hn, hu] using hcond
  refine (triple_mountCall _ fun s hs => hs.1.failed).bind fun _ => ?_
  refine (triple_lowerDirs (List.Subset.refl _)).bind fun stack => ?_
  rw [List.nil_append]
  refine Triple.bind (triple_setOptions (fun m => ?_) (fun m h _ => { h with })
    fun _ _ hm (hr : Ready env _ _) => hr.options hm) fun _ => ?_
  · exact ⟨⟨rfl, rfl, rfl, rfl⟩, rfl, rfl, rfl, rfl, rfl, rfl, rfl, rfl, id, id, rfl⟩
  refine Triple.bind .get fun b => Triple.bind (.ensure fun s hs => hs.1.1.failed) fun _ => ?_
  refine Triple.bind ((triple_getLowerLayers (List.Subset.refl stack)).mono (fun s hs => hs.1.1)
    fun _ _ h => h) fun _ => ?_
  exact (triple_mountCall _ fun s hs => hs.1.failed).mono (fun _ h => h) fun _ _ h => ⟨stack, h⟩

end Layers

section Check

variable {δ σ ν : Type} [DecidableEq δ] {env : MountEnv δ σ ν} {P E : MountState δ σ → Prop}

/-- The roots of the layers, and the directory with the work directory. -/
def Mounting.roots (m : Mounting δ σ) : List δ :=
  m.upper.toList ++ m.workbasedir.toList ++ m.lowerRoots

/-- No ancestor of these directories has a trap, or is in use with the index on. -/
def Clear (env : MountEnv δ σ ν) (l : List δ) (s : MountState δ σ) : Prop :=
  ∀ r ∈ l, ∀ a ∈ env.tree.ancestors r,
    a ∉ s.traps ∧ (s.inuse a = true → s.fs.config.index = false)

theorem triple_checkAncestors (ds : List δ) (hE : ∀ s, P s → E s) :
    Triple P (checkAncestors ds : MountM δ σ Unit)
      (fun _ s => P s ∧ ∀ a ∈ ds, a ∉ s.traps ∧ (s.inuse a = true → s.fs.config.index = false))
      E := by
  induction ds generalizing P with
  | nil => exact .pure fun s hs => ⟨hs, fun a ha => by cases ha⟩
  | cons d ds ih =>
    refine Triple.bind .get fun a => Triple.bind (.ensure fun s hs => hE s hs.1) fun _ => ?_
    refine Triple.bind (Q := fun _ s => P s ∧ d ∉ s.traps ∧
      (s.inuse d = true → s.fs.config.index = false)) (.ite (fun _ => ?_) fun ha => ?_) fun _ => ?_
    · refine (triple_ovlReportInUse fun s hs _ => hE s hs.1.1).mono (fun _ h => h) fun _ s hs => ?_
      obtain ⟨⟨⟨hP, rfl⟩, hd⟩, hi⟩ := hs
      exact ⟨hP, hd, fun _ => hi⟩
    · refine .pure fun s hs => ?_
      obtain ⟨⟨hP, rfl⟩, hd⟩ := hs
      exact ⟨hP, hd, fun hi => absurd hi ha⟩
    · refine (ih fun s hs => hE s hs.1).mono (fun _ h => h) fun _ s hs => ?_
      exact ⟨hs.1.1, List.forall_mem_cons.mpr ⟨hs.1.2, hs.2⟩⟩

theorem triple_ovlCheckLayer (d : Option δ) (hE : ∀ s, P s → E s) :
    Triple P (ovlCheckLayer env d : MountM δ σ Unit) (fun _ s => P s ∧ Clear env d.toList s) E := by
  cases d with
  | none => exact .pure fun s hs => ⟨hs, fun r hr => by cases hr⟩
  | some d =>
    refine (triple_checkAncestors _ hE).mono (fun _ h => h) fun _ s hs => ⟨hs.1, fun r hr => ?_⟩
    rw [List.mem_singleton.mp hr]
    exact hs.2

theorem triple_checkLayers (ds : List δ) (hE : ∀ s, P s → E s) :
    Triple P (checkLayers env ds : MountM δ σ Unit) (fun _ s => P s ∧ Clear env ds s) E := by
  induction ds generalizing P with
  | nil => exact .pure fun s hs => ⟨hs, fun r hr => by cases hr⟩
  | cons d ds ih =>
    refine (triple_ovlCheckLayer (some d) hE).bind fun _ => ?_
    refine (ih fun s hs => hE s hs.1).mono (fun _ h => h) fun _ s hs => ?_
    exact ⟨hs.1.1, List.forall_mem_cons.mpr ⟨hs.1.2 d List.mem_cons_self, hs.2⟩⟩

theorem triple_ovlCheckOverlappingLayers (hE : ∀ s, P s → E s)
    (hbase : ∀ s, P s → s.fs.upper = none → s.fs.workbasedir = none) :
    Triple P (ovlCheckOverlappingLayers env : MountM δ σ Unit)
      (fun _ s => P s ∧ Clear env s.fs.roots s) E := by
  refine Triple.bind .get fun a => ?_
  refine Triple.bind (Q := fun _ s => (P s ∧ a = s) ∧
    Clear env (s.fs.upper.toList ++ s.fs.workbasedir.toList) s) (.ite (fun _ => ?_) fun ha => ?_)
      fun _ => ?_
  · refine (triple_ovlCheckLayer _ fun s hs => hE s hs.1).bind fun _ => ?_
    refine (triple_ovlCheckLayer _ fun s hs => hE s hs.1.1).mono (fun _ h => h) fun _ s hs => ?_
    obtain ⟨⟨⟨hP, rfl⟩, hupper⟩, hwork⟩ := hs
    exact ⟨⟨hP, rfl⟩, List.forall_mem_append.mpr ⟨hupper, hwork⟩⟩
  · refine .pure fun s hs => ⟨hs, ?_⟩
    obtain ⟨hP, rfl⟩ := hs
    have hup : a.fs.upper = none := by simpa using ha
    rw [hup, hbase a hP hup]
    exact fun r hr => by cases hr
  · refine (triple_checkLayers _ fun s hs => hE s hs.1.1).mono (fun _ h => h) fun _ s hs => ?_
    obtain ⟨⟨⟨hP, rfl⟩, hdirs⟩, hlower⟩ := hs
    exact ⟨hP, List.forall_mem_append.mpr ⟨hdirs, hlower⟩⟩

end Check

section Body

variable {δ σ ν : Type} [DecidableEq δ] {env : MountEnv δ σ ν} {c : OvlConfig}
  {s₀ s : MountState δ σ} {m : Mounting δ σ}

/-- What a mount that succeeds ends with, before its options are settled. -/
structure Layered (env : MountEnv δ σ ν) (c : OvlConfig) (s₀ s : MountState δ σ) : Prop where
  inv : ∃ seen, MountInv env c s₀ seen s
  formed : Formed env s.fs
  clear : Clear env s.fs.roots s
  lowerdir : c.lowerdir.isSome = true

theorem Layered.settle (h : Layered env c s₀ s) :
    Layered env c s₀ { s with fs := s.fs.settle } := by
  obtain ⟨⟨seen, hinv⟩, hformed, hclear, hlower⟩ := h
  have hindex : s.fs.settle.config.index = true → s.fs.config.index = true := fun hi =>
    (Bool.and_eq_true_iff.mp hi).1
  have hexport : s.fs.settle.config.nfsExport = true → s.fs.config.nfsExport = true := fun hn =>
    (Bool.and_eq_true_iff.mp (Bool.and_eq_true_iff.mp hn).1).1
  have hhandles : s.fs.settle.usesHandles → s.fs.usesHandles := fun hu =>
    hu.imp hexport (And.imp_left hindex)
  refine ⟨⟨seen, hinv.setFs ⟨rfl, rfl, rfl, rfl⟩ rfl { hinv.settled with
    index := fun hi => hinv.settled.index (hindex hi)
    noxattr := fun hn => ⟨?_, (hinv.settled.noxattr hn).2⟩
    handles := fun hu => hinv.settled.handles (hhandles hu)
    uuid := fun hu => hinv.settled.uuid (hhandles hu) }⟩, { hformed with
    handles := fun hi => hformed.handles (hindex hi)
    nofollow := fun hn => hformed.nofollow (hexport hn)
    indexdir := fun hs => ⟨?_, (hformed.indexdir hs).2⟩ }, fun r hr a ha => ?_, hlower⟩
  · exact eq_false_of_ne_true fun hi =>
      Bool.false_ne_true ((hinv.settled.noxattr hn).1.symm.trans (hindex hi))
  · exact Bool.and_eq_true_iff.mpr ⟨(hformed.indexdir hs).1, hs⟩
  · obtain ⟨htrap, huse⟩ := hclear r hr a ha
    refine ⟨htrap, fun hi => eq_false_of_ne_true fun hix => ?_⟩
    exact Bool.false_ne_true ((huse hi).symm.trans (hindex hix))

/-- A state in which nothing was mounted yet. -/
structure Fresh (s₀ : MountState δ σ) : Prop where
  fs : ∃ rdonly, s₀.fs = newMounting rdonly
  traps : s₀.traps = []

theorem Fresh.marks (h : Fresh s₀) : Marks s₀ s₀ := by
  obtain ⟨⟨r, hr⟩, -⟩ := h
  refine ⟨rfl, fun d => ?_, fun u hu => ?_, fun _ => ?_, fun w hw => ?_, fun _ => ?_⟩
  · simp [hr, Mounting.holds, newMounting]
  · simp [hr, newMounting] at hu
  · rw [hr]
    rfl
  · simp [hr, newMounting] at hw
  · rw [hr]
    rfl

theorem Fresh.failed (h : Fresh s₀) : MountFailed env s₀ s₀ := by
  refine ⟨h.marks, none, ?_, fun d hd => by cases hd⟩
  obtain ⟨⟨r, hr⟩, htraps⟩ := h
  rw [htraps, hr]
  exact List.Perm.refl _

/-- The configuration is parsed, and nothing else has happened yet. -/
theorem Fresh.parsed (env : MountEnv δ σ ν) (h : Fresh s₀) (c : OvlConfig) (n : ℕ)
    (hn : n ≠ 0 → c.xino ≠ .off) :
    MountInv env c s₀ [] { s₀ with fs := { s₀.fs with config := c, xinoBits := n } } ∧
      Bare c { s₀.fs with config := c, xinoBits := n } := by
  have hmarks := h.marks
  obtain ⟨⟨r, hr⟩, htraps⟩ := h
  refine ⟨⟨hmarks.congr s₀.traps ⟨rfl, rfl, rfl, rfl⟩, ⟨fun _ u hu => ?_,
    fun _ w hw => ?_⟩, ⟨rfl, fun hu => ?_, id, id, fun hx => ?_, fun _ => rfl, hn,
      fun _ d hd => ?_, fun _ => ?_, ?_, nofun⟩, ?_, ?_⟩, ?_⟩
  · simp [hr, newMounting] at hu
  · simp [hr, newMounting] at hw
  · simp [hr, newMounting] at hu
  · simp [hr, newMounting] at hx
  · cases hd
  · rw [hr]
    exact .nil
  · rw [hr]
    exact List.nil_subset _
  · rw [htraps, hr]
    exact List.Perm.refl _
  · rw [htraps]
    exact List.nodup_nil
  · rw [hr]
    exact ⟨rfl, rfl, rfl, rfl, rfl, rfl, rfl, rfl, rfl, rfl, rfl⟩

variable [DecidableEq σ] [DecidableEq ν]

theorem triple_fillSuperBody (h : Fresh s₀) :
    Triple (fun s => s = s₀) (fillSuperBody env)
      (fun _ s => ∃ c s', ovlParseOpt env.par env.mem env.opts = .ok c ∧
        Layered env c s₀ s' ∧ s = { s' with fs := s'.fs.settle }) (MountFailed env s₀) := by
  have hfail : ∀ s, s = s₀ → MountFailed env s₀ s := by
    rintro s rfl
    exact h.failed
  refine (triple_mountCall _ hfail).bind fun _ => ?_
  refine (triple_ofExcept _ hfail).bind fun c => ?_
  refine .assuming (φ := ovlParseOpt env.par env.mem env.opts = .ok c) (fun s hs => hs.2)
    fun hparse => ?_
  refine (triple_setFs (Q := fun s => s = { s₀ with fs := { s₀.fs with config := c } })
    fun s hs => by rw [hs.1]).bind fun _ => ?_
  refine Triple.bind (.ensure fun s hs => ?_) fun _ => ?_
  · rw [hs]
    have hzero : s₀.fs.xinoBits = 0 := by
      obtain ⟨r, hr⟩ := h.fs
      rw [hr]
      rfl
    have hinv := (h.parsed env c s₀.fs.xinoBits fun hn => absurd hzero hn).1
    exact hinv.failed
  refine .assuming (φ := c.lowerdir.isSome = true) (fun s hs => hs.2) fun hlower => ?_
  refine (triple_setFs (Q := fun s => MountInv env c s₀ [] s ∧ Bare c s.fs) fun s hs => ?_).bind
    fun _ => ?_
  · rw [hs.1]
    refine h.parsed env c _ fun hn => ?_
    split at hn
    · assumption
    · exact absurd rfl hn
  refine triple_fillUpper.bind fun _ => triple_ovlGetLowerstack.bind fun _ => ?_
  refine Triple.bind (Q := fun _ s => ∃ seen, MountInv env c s₀ seen s ∧ Formed env s.fs)
    (fun s hs => ?_) fun _ => ?_
  · obtain ⟨seen, hs⟩ := hs
    exact (triple_fillIndex.mono (fun _ h => h) fun _ _ h => ⟨seen, h⟩) s hs
  refine (triple_ovlCheckOverlappingLayers (fun s hs => ?_) fun s hs => ?_).bind fun _ => ?_
  · obtain ⟨seen, hinv, -⟩ := hs
    exact hinv.failed
  · obtain ⟨seen, -, hformed⟩ := hs
    exact hformed.base
  refine (triple_setFs (Q := fun s => ∃ s', Layered env c s₀ s' ∧
    s = { s' with fs := s'.fs.settle }) fun s hs => ?_).bind fun _ => ?_
  · obtain ⟨⟨seen, hinv, hformed⟩, hclear⟩ := hs
    exact ⟨s, ⟨⟨seen, hinv⟩, hformed, hclear, hlower⟩, rfl⟩
  · refine (triple_mountCall _ fun s hs => ?_).mono (fun _ h => h) fun _ s hs => ?_
    · obtain ⟨s', hlayered, rfl⟩ := hs
      obtain ⟨seen, hinv⟩ := hlayered.settle.inv
      exact hinv.failed
    · obtain ⟨s', hs'⟩ := hs
      exact ⟨c, s', hparse, hs'⟩

end Body

section Free

variable {δ σ ν : Type} [DecidableEq δ] {s₀ s : MountState δ σ}

/-- A mount is undone: the marks are as before, no `WARN_ON` fired, and at most one trap is
still referenced, that of a lower directory which was marked before, with the index on. -/
structure Restored {ν : Type} (env : MountEnv δ σ ν) (s₀ s : MountState δ σ) : Prop where
  inuse : s.inuse = s₀.inuse
  warned : s.warned = s₀.warned
  traps : s.traps = [] ∨ ∃ d, s.traps = [d] ∧ .ok d ∈ env.lowerPaths ∧ s₀.inuse d = true ∧
    s.fs.config.index = true

theorem diff_trapsOf {leak : Option δ} {l k : List δ} (h : l.Perm (leak.toList ++ k)) :
    l.diff k = leak.toList := by
  have hperm : (l.diff k).Perm leak.toList := by
    refine List.perm_iff_count.mpr fun a => ?_
    rw [List.count_diff, h.count_eq, List.count_append, Nat.add_sub_cancel]
  cases leak with
  | none => exact hperm.eq_nil
  | some d => exact List.perm_singleton.mp hperm

/-- The marks of the mount are taken off, the one of the work directory first. -/
theorem Marks.unlockWork (h : Marks s₀ s) {locked : Bool} {w : Option δ}
    (hl : s.fs.workdirLocked = locked) (hw : s.fs.workbasedir = w) :
    ∃ t : MountState δ σ, unlockIf locked w s = (.ok (), t) ∧ t.fs = s.fs ∧ t.traps = s.traps ∧
      t.warned = s₀.warned ∧
      ∀ d, t.inuse d = (s₀.inuse d || (s.fs.upperdirLocked && s.fs.upper = some d)) := by
  cases w with
  | none =>
    refine ⟨s, rfl, rfl, rfl, h.warned, fun d => ?_⟩
    rw [h.inuse d, Mounting.holds, h.noWork hw]
    simp
  | some w =>
    have hlock := h.work w hw
    cases locked with
    | false =>
      refine ⟨s, rfl, rfl, rfl, h.warned, fun d => ?_⟩
      rw [h.inuse d, Mounting.holds, hl]
      simp
    | true =>
      rw [hl, eq_comm, Bool.not_eq_true'] at hlock
      refine ⟨_, rfl, rfl, rfl, ?_, fun d => ?_⟩
      · change (s.warned || !s.inuse w) = s₀.warned
        rw [h.warned, h.inuse w, Mounting.holds, hl, hw]
        simp
      · change Function.update s.inuse w false d = _
        by_cases hd : d = w
        · rw [hd, Function.update_self]
          exact hlock.symm
        · rw [Function.update_of_ne hd, h.inuse d, Mounting.holds, hw]
          simp [Ne.symm hd]

theorem Marks.unlockUpper (h : Marks s₀ s) {t : MountState δ σ} (hfs : t.fs = s.fs)
    (hwarned : t.warned = s₀.warned)
    (hinuse : ∀ d, t.inuse d = (s₀.inuse d || (s.fs.upperdirLocked && s.fs.upper = some d))) :
    ∃ t' : MountState δ σ, unlockIf s.fs.upperdirLocked s.fs.upper t = (.ok (), t') ∧
      t'.fs = s.fs ∧ t'.traps = t.traps ∧ t'.warned = s₀.warned ∧ t'.inuse = s₀.inuse := by
  cases hup : s.fs.upper with
  | none =>
    refine ⟨t, rfl, hfs, rfl, hwarned, funext fun d => ?_⟩
    rw [hinuse d, h.noUpper hup]
    simp
  | some u =>
    have hlock := h.upper u hup
    cases hl : s.fs.upperdirLocked with
    | false =>
      refine ⟨t, rfl, hfs, rfl, hwarned, funext fun d => ?_⟩
      rw [hinuse d, hl]
      simp
    | true =>
      rw [hl, eq_comm, Bool.not_eq_true'] at hlock
      refine ⟨_, rfl, hfs, rfl, ?_, funext fun d => ?_⟩
      · change (t.warned || !t.inuse u) = s₀.warned
        rw [hwarned, hinuse u, hl, hup]
        simp
      · change Function.update t.inuse u false d = _
        by_cases hd : d = u
        · rw [hd, Function.update_self]
          exact hlock.symm
        · rw [Function.update_of_ne hd, hinuse d, hup]
          simp [Ne.symm hd]

theorem ovlFreeFs_eq (s : MountState δ σ) :
    ovlFreeFs s = (do
      unlockIf s.fs.workdirLocked s.fs.workbasedir
      unlockIf s.fs.upperdirLocked s.fs.upper : MountM δ σ Unit)
        { s with traps := s.traps.diff s.fs.trapsOf } :=
  rfl

/-- `ovl_free_fs` undoes what was done so far, up to the traps it does not know of. -/
theorem ovlFreeFs_undoes (hmarks : Marks s₀ s) {leak : Option δ}
    (htraps : s.traps.Perm (leak.toList ++ s.fs.trapsOf)) :
    ∃ t, ovlFreeFs s = (.ok (), t) ∧ t.inuse = s₀.inuse ∧ t.warned = s₀.warned ∧
      t.traps = leak.toList ∧ t.fs = s.fs := by
  let s' : MountState δ σ := { s with traps := s.traps.diff s.fs.trapsOf }
  have hmarks' : Marks s₀ s' := hmarks.congr _ ⟨rfl, rfl, rfl, rfl⟩
  obtain ⟨t, hwork, hfs, htt, hwarned, hinuse⟩ := hmarks'.unlockWork rfl rfl
  obtain ⟨t', hupper, hfs', htt', hwarned', hinuse'⟩ := hmarks'.unlockUpper hfs hwarned hinuse
  refine ⟨t', ?_, hinuse', hwarned', ?_, hfs'⟩
  · rw [ovlFreeFs_eq, bind_of_ok hwork]
    exact hupper
  · rw [htt', htt]
    exact diff_trapsOf htraps

theorem MountFailed.restored {ν : Type} {env : MountEnv δ σ ν} (h : MountFailed env s₀ s) :
    ∃ t, ovlFreeFs s = (.ok (), t) ∧ Restored env s₀ t := by
  obtain ⟨hmarks, leak, htraps, hleak⟩ := h
  obtain ⟨t, hfree, hinuse, hwarned, htt, hfs⟩ := ovlFreeFs_undoes hmarks htraps
  refine ⟨t, hfree, hinuse, hwarned, ?_⟩
  rw [htt, hfs]
  cases leak with
  | none => exact .inl rfl
  | some d => exact .inr ⟨d, rfl, hleak d rfl⟩

end Free

section Result

variable {δ σ ν : Type} [DecidableEq δ] [DecidableEq σ] [DecidableEq ν] {env : MountEnv δ σ ν}
  {s₀ t : MountState δ σ}

/-- How `ovl_fill_super` ends. -/
theorem ovlFillSuper_ok (h : Fresh s₀) (hok : ovlFillSuper env s₀ = (.ok (), t)) :
    ∃ c s, ovlParseOpt env.par env.mem env.opts = .ok c ∧ Layered env c s₀ s ∧
      t = { s with fs := s.fs.settle } := by
  have htriple : Triple (fun s => s = s₀) (ovlFillSuper env) (fun _ s => ∃ c s',
      ovlParseOpt env.par env.mem env.opts = .ok c ∧ Layered env c s₀ s' ∧
        s = { s' with fs := s'.fs.settle }) (fun _ => True) := by
    refine (triple_mountCall _ fun _ _ => trivial).bind fun _ => ?_
    exact .onError (triple_fillSuperBody h) fun s _ => by split <;> trivial
  exact htriple.ok rfl hok

/-- A mount that fails, or is unmounted again, leaves no mark and fires no `WARN_ON`. It
leaves no trap either, except that of a lower directory which was in use when the index made
that an error. -/
theorem failed_mount_restores (env : MountEnv δ σ ν) (s₀ t : MountState δ σ) (h : Fresh s₀) :
    (∀ e, ovlFillSuper env s₀ = (.error e, t) → Restored env s₀ t) ∧
    (ovlFillSuper env s₀ = (.ok (), t) →
      ∃ t', ovlFreeFs t = (.ok (), t') ∧ Restored env s₀ t' ∧ t'.traps = []) := by
  refine ⟨fun e he => ?_, fun hok => ?_⟩
  · have htriple : Triple (fun s => s = s₀) (ovlFillSuper env) (fun _ _ => True)
        (Restored env s₀) := by
      refine (triple_mountCall _ fun s hs => ?_).bind fun _ => ?_
      · subst hs
        exact ⟨rfl, rfl, .inl h.traps⟩
      refine .mono (.onError (triple_fillSuperBody h) fun s hs => ?_) (fun _ h => h)
        fun _ _ _ => trivial
      obtain ⟨t, hfree, ht⟩ := hs.restored
      rw [hfree]
      exact ht
    have := htriple s₀ rfl
    rwa [he] at this
  · obtain ⟨c, s, -, hlayered, rfl⟩ := ovlFillSuper_ok h hok
    obtain ⟨seen, hinv⟩ := hlayered.settle.inv
    obtain ⟨t', hfree, hinuse, hwarned, htraps, -⟩ :=
      @ovlFreeFs_undoes _ _ _ _ _ hinv.marks none hinv.traps
    exact ⟨t', hfree, ⟨hinuse, hwarned, .inl htraps⟩, htraps⟩

/-- The lower directory is in use by another mount. -/
theorem failed_mount_restores_busy :
    let busy : MountState (Fin 6) (Fin 1) := { unmounted with inuse := fun d => d = 5 }
    (ovlFillSuper smallMount busy).2.traps = [5] ∧
      Restored smallMount busy (ovlFillSuper smallMount busy).2 := by
  intro busy
  have hbusy : (ovlFillSuper smallMount busy).1 = .error EBUSY := by decide +kernel
  have h := failed_mount_restores smallMount busy (ovlFillSuper smallMount busy).2
    ⟨⟨false, rfl⟩, rfl⟩
  exact ⟨by decide +kernel, h.1 EBUSY (eq_of_fst hbusy)⟩

end Result

end FzzOverlay
