import Mathlib.Logic.Function.Iterate
import FzzOverlay.Super.MountLayers

/-!
# What a mount ends with

The options of a mount fit each other and its layers, also after remounting, they are shown
as what a mount can be asked for with, and its layers do not overlap.

## Main definitions

- `OptionsFit` — which options go with which directories and filesystems
- `DirTree.Below` — a directory is another one or below it
- `remounts` — requests to remount, of which some fail
- `mount_options_consistent`, `show_options_reads_back`, `mount_layers_disjoint` — the results
-/

namespace FzzOverlay

open Act CString

section Tree

variable {δ : Type} (t : DirTree δ)

/-- `d` is `a` or below `a`. -/
def DirTree.Below (d a : δ) : Prop := ∃ n, t.parent^[n] d = a

theorem DirTree.depth_iterate_le (n : ℕ) (d : δ) : t.depth (t.parent^[n] d) ≤ t.depth d := by
  induction n generalizing d with
  | zero => exact le_rfl
  | succ n ih =>
    rw [Function.iterate_succ_apply]
    refine (ih _).trans ?_
    by_cases h : t.parent d = d
    · rw [h]
    · exact (t.depth_parent d h).le

/-- A root is below nothing else. -/
theorem DirTree.eq_of_below_root {d a : δ} (h : t.parent d = d) (ha : t.Below d a) : a = d := by
  obtain ⟨k, rfl⟩ := ha
  exact Function.iterate_fixed h k

variable [DecidableEq δ]

theorem DirTree.mem_ancestorsUpTo {n : ℕ} {d a : δ} (hn : t.depth d ≤ n) :
    a ∈ t.ancestorsUpTo n d ↔ t.Below d a ∧ a ≠ d := by
  induction n generalizing d with
  | zero =>
    rw [DirTree.ancestorsUpTo]
    have hroot : t.parent d = d := by
      by_contra h
      exact absurd (t.depth_parent d h) (by omega)
    exact iff_of_false (by simp) fun h => h.2 (t.eq_of_below_root hroot h.1)
  | succ n ih =>
    rw [DirTree.ancestorsUpTo]
    split
    · next hroot => exact iff_of_false (by simp) fun h => h.2 (t.eq_of_below_root hroot h.1)
    · next h =>
      have hlt := t.depth_parent d h
      have hup : ∀ k, t.parent^[k + 1] d ≠ d := by
        intro k hk
        have := t.depth_iterate_le k (t.parent d)
        rw [← Function.iterate_succ_apply, hk] at this
        omega
      rw [List.mem_cons, ih (by omega)]
      constructor
      · rintro (rfl | ⟨⟨k, rfl⟩, -⟩)
        · exact ⟨⟨1, rfl⟩, h⟩
        · exact ⟨⟨k + 1, rfl⟩, hup k⟩
      · rintro ⟨⟨k, rfl⟩, hne⟩
        cases k with
        | zero => exact absurd rfl hne
        | succ k =>
          by_cases hp : t.parent^[k + 1] d = t.parent d
          · exact .inl hp
          · exact .inr ⟨⟨k, rfl⟩, hp⟩

theorem DirTree.mem_ancestors {d a : δ} : a ∈ t.ancestors d ↔ t.Below d a ∧ a ≠ d :=
  t.mem_ancestorsUpTo le_rfl

end Tree

section Options

variable {δ σ ν : Type}

/-- Which options go with which directories and filesystems. -/
structure OptionsFit (env : MountEnv δ σ ν) (m : Mounting δ σ) : Prop where
  upper : m.config.upperdir.isSome = m.upper.isSome
  index : m.config.index = m.indexdir.isSome
  indexed : m.config.index = true →
    m.upper.isSome = true ∧ m.workdir.isSome = true ∧ m.noxattr = false ∧
      ∀ w, m.workdir = some w → env.fhType (env.sb w) ≠ .none
  exported : m.config.nfsExport = true →
    m.config.metacopy = false ∧ (m.upper.isSome = true → m.config.index = true) ∧
      (m.upper.isSome = false → m.config.redirectFollow = false)
  metacopy : m.config.metacopy = true → m.config.redirectDir = true ∧ m.noxattr = false
  forced : m.forceReadonly = true → m.rdonly = true
  handles : m.usesHandles → (∀ r ∈ m.lowerRoots, env.fhType (env.sb r) ≠ .none) ∧
    m.lowerFs.Pairwise fun a b => env.uuid a.sb ≠ env.uuid b.sb
  xino : m.xinoBits ≠ 0 → m.config.xino ≠ .off
  exportOp : m.exportOp = m.config.nfsExport

/-- `ovl_remount` for one request after the other. A request that fails changes nothing. -/
def remounts (m : Mounting δ σ) (flags : List Bool) : Mounting δ σ :=
  flags.foldl (fun m rdonly => match ovlRemount m rdonly with
    | .ok m' => m'
    | .error _ => m) m

theorem resolveMetacopy_ok {s : ParseState} {c c' : OvlConfig}
    (h : resolveMetacopy s c = .ok c') : c'.metacopy = true → c'.redirectDir = true := by
  unfold resolveMetacopy at h
  split at h
  · split at h
    · cases h
    · split at h
      · cases h
        exact fun hm => by cases hm
      · cases h
        exact fun _ => rfl
  · next hneed =>
    cases h
    intro hm
    simpa [hm] using hneed

/-- Metadata copy-up comes with redirects. -/
theorem ovlParseOpt_metacopy {par : ModuleParams} {mem : List UInt8 → Bool}
    {opts : List (List UInt8)} {c : OvlConfig} (h : ovlParseOpt par mem opts = .ok c) :
    c.metacopy = true → c.redirectDir = true := by
  unfold ovlParseOpt at h
  split at h
  · cases h
  · obtain ⟨s, -, hfinish⟩ := bind_eq_ok.mp h
    obtain ⟨c', -, hres⟩ := bind_eq_ok.mp hfinish
    exact resolveMetacopy_ok hres

variable [DecidableEq δ] {env : MountEnv δ σ ν} {c : OvlConfig} {s₀ s : MountState δ σ}

theorem Layered.optionsFit (h : Layered env c s₀ s)
    (hmeta : c.metacopy = true → c.redirectDir = true) : OptionsFit env s.fs.settle := by
  obtain ⟨⟨seen, hinv⟩, hformed, -, -⟩ := h.settle
  have hset := hinv.settled
  have hup : s.fs.settle.config.upperdir = c.upperdir := hset.upperdir
  have hindex : s.fs.settle.config.index = s.fs.settle.indexdir.isSome := by
    refine Bool.eq_iff_iff.mpr ⟨fun hi => (Bool.and_eq_true_iff.mp hi).2, fun hd => ?_⟩
    exact (hformed.indexdir hd).1
  have hxattr : s.fs.settle.noxattr = true → s.fs.settle.config.index = false ∧
      s.fs.settle.config.metacopy = false := hset.noxattr
  refine ⟨Bool.eq_iff_iff.mpr ⟨hformed.given, fun hu => hup ▸ hset.upper hu⟩, hindex,
    fun hi => ?_, fun hn => ?_, fun hm => ⟨?_, ?_⟩, hformed.rdonly, fun hu => ⟨fun r hr => ?_,
      hset.uuid hu⟩, hset.xino, rfl⟩
  · have hforce := (hformed.indexdir (hindex ▸ hi)).2
    rw [Mounting.forceReadonly, Bool.or_eq_false_iff] at hforce
    refine ⟨by simpa using hforce.1, by simpa using hforce.2, ?_, hformed.handles hi⟩
    exact eq_false_of_ne_true fun hx => Bool.false_ne_true ((hxattr hx).1.symm.trans hi)
  · have hparts := hn
    simp only [Mounting.settle, Bool.and_eq_true, Bool.not_eq_true'] at hparts
    refine ⟨hparts.2, fun hu => ?_, fun hu => hformed.nofollow hn ?_⟩
    · rw [hindex]
      change s.fs.indexdir.isSome = true
      have hdir := hparts.1.2
      rw [show s.fs.upper.isSome = true from hu, Bool.and_true] at hdir
      simpa using hdir
    · cases hd : s.fs.settle.config.upperdir with
      | none => rfl
      | some d => exact absurd (hformed.given (by rw [hd]; rfl)) (by rw [hu]; decide)
  · have hrest : s.fs.settle.config.rest.redirectDir = c.rest.redirectDir :=
      congrArg OvlConfig.redirectDir hset.rest
    exact hrest.trans (hmeta (hset.metacopy hm))
  · exact eq_false_of_ne_true fun hx => Bool.false_ne_true ((hxattr hx).2.symm.trans hm)
  · exact hset.handles hu r (hset.roots hr)

omit [DecidableEq δ] in
/-- A mount that cannot be written to stays read-only. -/
theorem OptionsFit.remount {m m' : Mounting δ σ} {rdonly : Bool} (h : OptionsFit env m)
    (hok : ovlRemount m rdonly = .ok m') : OptionsFit env m' := by
  unfold ovlRemount at hok
  split at hok
  · cases hok
  · next hforce =>
    cases hok
    refine { h with forced := fun hf => ?_ }
    change rdonly = true
    by_contra hr
    exact hforce (by rw [eq_false_of_ne_true hr, show m.forceReadonly = true from hf]; rfl)

omit [DecidableEq δ] in
theorem OptionsFit.remounts {m : Mounting δ σ} (h : OptionsFit env m) (flags : List Bool) :
    OptionsFit env (remounts m flags) := by
  induction flags generalizing m with
  | nil => exact h
  | cons r flags ih =>
    change OptionsFit env (FzzOverlay.remounts (match ovlRemount m r with
      | .ok m' => m'
      | .error _ => m) flags)
    cases hr : ovlRemount m r with
    | error e => exact ih h
    | ok m' => exact ih (h.remount hr)

end Options

section Roots

variable {δ σ ν : Type} [DecidableEq δ] {env : MountEnv δ σ ν} {c : OvlConfig}
  {s₀ s : MountState δ σ}

theorem Layered.roots_subset (h : Layered env c s₀ s) :
    s.fs.roots ⊆ s.traps := by
  obtain ⟨⟨seen, hinv⟩, hformed, -, -⟩ := h
  refine fun r hr => hinv.traps.mem_iff.mpr ?_
  simp only [Mounting.roots, List.mem_append, Option.mem_toList] at hr
  obtain (hu | hw) | hl := hr
  · simp [Mounting.trapsOf, hformed.upperTrap r hu]
  · simp [Mounting.trapsOf, hformed.workTrap r hw]
  · simp [Mounting.trapsOf, hl]

theorem Layered.roots_nodup (h : Layered env c s₀ s) :
    s.fs.roots.Nodup := by
  obtain ⟨⟨seen, hinv⟩, hformed, -, -⟩ := h
  have hnodup : s.fs.trapsOf.Nodup := hinv.traps.nodup_iff.mp hinv.nodup
  refine List.nodup_iff_count_le_one.mpr fun a => ?_
  refine le_trans ?_ (List.nodup_iff_count_le_one.mp hnodup a)
  have hupper : s.fs.upper.toList.count a ≤ s.fs.upperdirTrap.toList.count a := by
    cases hu : s.fs.upper with
    | none => exact Nat.zero_le _
    | some u => rw [hformed.upperTrap u hu]
  have hwork : s.fs.workbasedir.toList.count a ≤ s.fs.workbasedirTrap.toList.count a := by
    cases hw : s.fs.workbasedir with
    | none => exact Nat.zero_le _
    | some w => rw [hformed.workTrap w hw]
  simp only [Mounting.roots, Mounting.trapsOf, List.count_append]
  omega

end Roots

section Result

variable {δ σ ν : Type} [DecidableEq δ] [DecidableEq σ] [DecidableEq ν] (env : MountEnv δ σ ν)
  {s₀ t : MountState δ σ}

/-- However the options were combined, those that a mount ends with fit each other and the
filesystems of its layers, and still do after any requests to remount. -/
theorem mount_options_consistent (h : Fresh s₀) (hok : ovlFillSuper env s₀ = (.ok (), t))
    (flags : List Bool) : OptionsFit env (remounts t.fs flags) := by
  obtain ⟨c, s, hparse, hlayered, rfl⟩ := ovlFillSuper_ok h hok
  exact (hlayered.optionsFit (ovlParseOpt_metacopy hparse)).remounts flags

/-- NFS export is on, and the filesystem was remounted read-only and writable again. -/
theorem mount_options_consistent_twice :
    (ovlFillSuper smallMount unmounted).2.fs.config.nfsExport = true ∧
      OptionsFit smallMount (remounts (ovlFillSuper smallMount unmounted).2.fs [true, false]) := by
  have hok : (ovlFillSuper smallMount unmounted).1 = .ok () := by decide +kernel
  refine ⟨by decide +kernel, ?_⟩
  exact mount_options_consistent smallMount ⟨⟨false, rfl⟩, rfl⟩ (eq_of_fst hok) [true, false]

/-- A mount of `smallMount` with an escaped comma in the name of its upper directory, where
metadata copy-up turns redirects on. -/
def metacopyMount (xattr : Bool) : MountEnv (Fin 6) (Fin 1) ℕ :=
  { smallMount with
    opts := [ascii "lowerdir=/l", ascii "upperdir=/u\\,v", ascii "workdir=/w",
      ascii "metacopy=on"]
    xattr := xattr }

/-- Without xattrs metadata copy-up is given up, the redirects it turned on are not, and what
is shown does not ask for them. -/
theorem show_options_loses_redirects :
    let r := ovlFillSuper (metacopyMount false) unmounted
    r.1 = .ok () ∧ r.2.fs.config.redirectDir = true ∧
      (ovlParseOpt smallMount.par enoughMem
        (ovlShowOptions smallMount.par r.2.fs.config)).map OvlConfig.redirectDir = .ok false := by
  decide +kernel

/-- The upper directory, the directory with the work directory and the lower layers of a
mount are different directories, and none is below another. With the index on, no directory
above them is in use, by this mount or another one, and the upper and the work directory were
not in use before. -/
theorem mount_layers_disjoint (h : Fresh s₀) (hok : ovlFillSuper env s₀ = (.ok (), t)) :
    t.fs.roots.Pairwise (fun a b => ¬ env.tree.Below a b ∧ ¬ env.tree.Below b a) ∧
    (t.fs.config.index = true → ∀ r ∈ t.fs.roots, ∀ a, env.tree.Below r a → a ≠ r →
      t.inuse a = false) ∧
    (t.fs.config.index = true → ∀ d, t.fs.upper = some d ∨ t.fs.workbasedir = some d →
      s₀.inuse d = false) := by
  obtain ⟨c, s, -, hlayered, rfl⟩ := ovlFillSuper_ok h hok
  have hlayered := hlayered.settle
  have habove : ∀ r ∈ s.fs.settle.roots, ∀ a ∈ s.fs.settle.roots, a ≠ r →
      ¬ env.tree.Below r a := by
    intro r hr a ha hne hbelow
    exact (hlayered.clear r hr a (env.tree.mem_ancestors.mpr ⟨hbelow, hne⟩)).1
      (hlayered.roots_subset ha)
  refine ⟨hlayered.roots_nodup.imp_of_mem fun ha hb hab => ?_, fun hi r hr a ha hne => ?_,
    fun hi d hd => ?_⟩
  · exact ⟨habove _ ha _ hb (Ne.symm hab), habove _ hb _ ha hab⟩
  · have hclear := (hlayered.clear r hr a (env.tree.mem_ancestors.mpr ⟨ha, hne⟩)).2
    exact eq_false_of_ne_true fun hu => Bool.false_ne_true ((hclear hu).symm.trans hi)
  · obtain ⟨seen, hinv⟩ := hlayered.inv
    have hci := hinv.settled.index hi
    exact hd.elim (hinv.unshared.upper hci d) fun hw => (hinv.unshared.work hci d hw).1

theorem mount_layers_disjoint_small :
    (ovlFillSuper smallMount unmounted).2.fs.roots = [1, 2, 5] ∧
    [1, 2, 5].Pairwise (fun a b : Fin 6 => ¬ smallTree.Below a b ∧ ¬ smallTree.Below b a) ∧
    (ovlFillSuper smallMount unmounted).2.inuse 0 = false := by
  have hok : (ovlFillSuper smallMount unmounted).1 = .ok () := by decide +kernel
  have hroots : (ovlFillSuper smallMount unmounted).2.fs.roots = [1, 2, 5] := by decide +kernel
  have hindex : (ovlFillSuper smallMount unmounted).2.fs.config.index = true := by
    decide +kernel
  have hfresh : Fresh unmounted := ⟨⟨false, rfl⟩, rfl⟩
  obtain ⟨hpair, hclear, -⟩ := mount_layers_disjoint smallMount hfresh (eq_of_fst hok)
  rw [hroots] at hpair hclear
  exact ⟨hroots, hpair, hclear hindex 1 (by decide) 0 ⟨1, rfl⟩ (by decide)⟩

end Result

end FzzOverlay
