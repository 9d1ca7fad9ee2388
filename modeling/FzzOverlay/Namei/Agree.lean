import FzzOverlay.Namei.Lookup
import FzzOverlay.Readdir.Union

/-!
# Lookup and listing agree

A name is visible through `ovl_lookup` when the topmost layer that has it does not have a
whiteout there, and so it is in the list of `ovl_dir_read_merged`.
-/

namespace FzzOverlay

variable {m : Mount} {fs : Layers} {up : UpperLookup} {name : List UInt8}

/-- The topmost inode under a name, with its layer. -/
def firstChild (fs : Layers) (name : List UInt8) (layers : List LowerPath) :
    Option LowerPath :=
  layers.findSome? fun l => (childAt fs l.idx l.ino name).map (⟨l.idx, ·⟩)

/-- The topmost inode under a name is there and is not a whiteout. -/
def Visible (fs : Layers) (name : List UInt8) (layers : List LowerPath) : Prop :=
  ∃ p, firstChild fs name layers = some p ∧ (fs.inode p.idx p.ino).kind ≠ .whiteout

theorem not_visible_nil : ¬ Visible fs name [] := by
  rintro ⟨p, hp, -⟩
  cases hp

theorem visible_cons_absent {l : LowerPath} {ls : List LowerPath}
    (h : childAt fs l.idx l.ino name = none) :
    Visible fs name (l :: ls) ↔ Visible fs name ls := by
  simp only [Visible, firstChild, List.findSome?_cons, h, Option.map_none]

theorem visible_cons_present {l : LowerPath} {ls : List LowerPath} {i : ℕ}
    (h : childAt fs l.idx l.ino name = some i) :
    Visible fs name (l :: ls) ↔ (fs.inode l.idx i).kind ≠ .whiteout := by
  simp only [Visible, firstChild, List.findSome?_cons, h, Option.map_some,
    Option.some.injEq]
  constructor
  · rintro ⟨p, rfl, hp⟩
    exact hp
  · intro hp
    exact ⟨_, rfl, hp⟩

section Loop

/-- A pass that finds something leaves something on the stack. -/
theorem stackThis_stack_ne_nil {st : LowerLookup} {d : LookupData} {this : LowerPath}
    {origin : Option LowerPath} {p : LowerPass}
    (h : lowerPass.stackThis m st d this origin = .ok p) : p.st.stack ≠ [] := by
  have hne : st.stack ++ [this] ≠ [] := List.append_ne_nil_of_right_ne_nil _ (by simp)
  cases stackThis_cases h with
  | skip _ hs => exact hs
  | stop => exact hne
  | toRoot => exact hne
  | next => exact hne

/-- Once something is on the stack, something stays there. -/
theorem lowerPass_stack_ne_nil (lower : LowerPath) (rest : List LowerPath) (st : LowerLookup)
    (p : LowerPass) (hst : st.stack ≠ []) (h : lowerPass m fs up lower rest st = .ok p) :
    p.st.stack ≠ [] := by
  obtain ⟨d, res, -, ⟨-, rfl⟩ | ⟨ino, -, -, hnil, -⟩ | ⟨ino, origin, -, -, h⟩⟩ := lowerPass_ok h
  · exact hst
  · exact absurd hnil hst
  · exact stackThis_stack_ne_nil h

/-- The state of the loop while nothing was found. -/
structure Nothing (name : List UInt8) (st : LowerLookup) : Prop where
  name : st.d.name = .rel name
  isDir : st.d.isDir = false
  metacopy : st.d.metacopy = false
  stack : st.stack = []
  origin : st.origin = none

/-- The loop without an upper: it finds something just when the name is visible. -/
theorem poeLoop_nothing {ls : List LowerPath} {st st' : LowerLookup}
    (hup : up.upper = none) (hn : Nothing name st) (hstop : st.d.stop = false)
    (h : poeLoop m fs up ls st = .ok st') :
    (st'.stack ≠ [] ↔ Visible fs name ls) ∧ (st'.stack = [] → st'.origin = none) := by
  induction ls generalizing st with
  | nil =>
    rw [← Except.ok.inj h]
    exact ⟨⟨fun hne => absurd hn.stack hne, fun hv => absurd hv not_visible_nil⟩,
      fun _ => hn.origin⟩
  | cons l ls ih =>
    rw [poeLoop, hstop] at h
    simp only [Bool.false_eq_true, if_false] at h
    cases hp : lowerPass m fs up l ls st with
    | error e => rw [hp] at h; cases h
    | ok p =>
      rw [hp] at h
      obtain ⟨d, res, hl, hcase⟩ := lowerPass_ok hp
      have hs : ovlLookupSingle fs l.idx l.ino { st.d with last := lowerLast m l ls } name
          none [] = .ok (d, res) := by
        rw [← hl, ovlLookupLayer]
        simp only [hn.name]
      have hsingle := ovlLookupSingle_cases fs hs
      obtain ⟨rfl, rfl⟩ | ⟨ino, -, hsome, -⟩ | ⟨ino, origin, rfl, -, hthis⟩ := hcase
      · cases hsingle with
        | absent hchild =>
          rw [visible_cons_absent hchild]
          have hn' : Nothing name { st with d := { st.d with last := lowerLast m l ls } } :=
            ⟨hn.name, hn.isDir, hn.metacopy, hn.stack, hn.origin⟩
          exact ih hn' hstop h
        | whiteout i hchild hkind =>
          have hend : st' = { st with d := { st.d with
              last := lowerLast m l ls, stop := true, isOpaque := true } } := by
            cases ls <;> exact (Except.ok.inj h).symm
          rw [visible_cons_present hchild, hend]
          exact ⟨⟨fun hne => absurd hn.stack hne, fun hne => absurd hkind hne⟩,
            fun _ => hn.origin⟩
        | blocked i hchild hkind hwhy =>
          obtain ⟨-, hm, -⟩ | ⟨-, hd | hd⟩ := hwhy
          · exact absurd (hn.metacopy.symm.trans hm) Bool.false_ne_true
          · exact absurd (hn.isDir.symm.trans hd) Bool.false_ne_true
          · exact absurd rfl hd
      · rw [hup] at hsome
        cases hsome
      · have hkind : childAt fs l.idx l.ino name = some ino ∧
            (fs.inode l.idx ino).kind ≠ .whiteout := by
          cases hsingle with
          | file i mc d' hchild hkind => exact ⟨hchild, hkind⟩
          | dir i d' hchild hdir => exact ⟨hchild, by rw [hdir]; decide⟩
        have hne := stackThis_stack_ne_nil hthis
        have hend : st'.stack ≠ [] := by
          cases p with
          | next st₁ => exact poeLoop_invariant lowerPass_stack_ne_nil hne h
          | «break» st₁ =>
            rw [← Except.ok.inj h]
            exact hne
          | toRoot st₁ => exact rootLoop_invariant lowerPass_stack_ne_nil hne h
        rw [visible_cons_present hkind.1]
        exact ⟨⟨fun _ => hkind.2, fun _ => hend⟩, fun hnil => absurd hnil hend⟩

end Loop

/-- The directories of an entry from the top, the upper one as layer 0. -/
def OvlEntry.layers (p : OvlEntry) : List LowerPath :=
  (p.upper.map (⟨0, ·⟩)).toList ++ p.lowerstack

theorem OvlEntry.layers_upper {p : OvlEntry} {u : ℕ} (h : p.upper = some u) :
    p.layers = ⟨0, u⟩ :: p.lowerstack := by
  rw [OvlEntry.layers, h]
  rfl

theorem visible_upper_absent {p : OvlEntry}
    (h : ∀ u, p.upper = some u → childAt fs 0 u name = none) :
    Visible fs name p.layers ↔ Visible fs name p.lowerstack := by
  cases hu : p.upper with
  | none =>
    rw [OvlEntry.layers, hu]
    rfl
  | some u =>
    rw [OvlEntry.layers_upper hu]
    exact visible_cons_absent (h u hu)

theorem lookupStack_of_upper_none {st : LowerLookup} {stack : List LowerPath}
    (hup : up.upper = none) (h : lookupStack m up st = .ok stack) : stack = st.stack := by
  unfold lookupStack at h
  rw [hup] at h
  split at h
  · split at h
    · cases h
    split at h
    · cases h
    · exact (Except.ok.inj h).symm
  · split at h
    · next hfile => exact absurd hfile.2.1 (by simp)
    · exact (Except.ok.inj h).symm

theorem lookupIndexOf_nil {st : LowerLookup} (h : st.origin = none) :
    lookupIndexOf m up st [] = .ok none := by
  simp [lookupIndexOf, lookupOrigin, h]

/-- A lookup gives a dentry that is not negative just when the name is visible. -/
theorem positive_iff_visible {p : OvlEntry} {r : Found} (h : ovlLookup m fs p name = .ok r) :
    r.positive = true ↔ Visible fs name p.layers := by
  obtain ⟨up, st, index, redirect, hup, hst, hstack, hindex, -, hr⟩ := ovlLookup_ok h
  have hpos : r.positive = true ↔ (up.upper <|> index).isSome = true ∨
      r.entry.lowerstack ≠ [] := by
    rw [hr, Found.positive]
    simp
  -- without an upper the stack and the index are those of the loop
  have hlower : up.upper = none → (st.stack = [] → st.origin = none) →
      (r.positive = true ↔ st.stack ≠ []) := by
    intro hnone horigin
    have hs := lookupStack_of_upper_none hnone hstack
    rw [hpos, hnone, hs]
    constructor
    · rintro (hi | hne) hnil
      · rw [hs, hnil, lookupIndexOf_nil (horigin hnil)] at hindex
        rw [← Except.ok.inj hindex] at hi
        cases hi
      · exact hne hnil
    · exact Or.inr
  cases lookupUpper_cases hup with
  | found u i d origin mc hparent hchild hkind hd =>
    rw [OvlEntry.layers_upper hparent, visible_cons_present hchild, hpos]
    exact ⟨fun _ => hkind, fun _ => .inl rfl⟩
  | whiteout u i hparent hchild hkind =>
    have hend : st = ⟨{ initData m p name with stop := true, isOpaque := true }, [], none,
        false⟩ := by
      change poeLoop m fs _ p.lowerstack _ = _ at hst
      cases hl : p.lowerstack <;> rw [hl] at hst <;> exact (Except.ok.inj hst).symm
    rw [hlower rfl (by rw [hend]; exact fun _ => rfl), OvlEntry.layers_upper hparent,
      visible_cons_present hchild, hend]
    exact ⟨fun hne => absurd rfl hne, fun hne => absurd hkind hne⟩
  | absent hchild =>
    have hn : Nothing name ⟨initData m p name, [], none, false⟩ := ⟨rfl, rfl, rfl, rfl, rfl⟩
    obtain ⟨hvis, horigin⟩ := poeLoop_nothing rfl hn rfl hst
    rw [hlower rfl horigin, hvis, visible_upper_absent hchild]

section Listing

/-- A stream of entries that lists a directory of a layer: the names are those that lookup
finds, and the whiteouts are the same. -/
structure Mirrors (fs : Layers) (layer base : ℕ) (dir : RealDir) : Prop where
  lists : dir.Lists
  listed : ∀ name, name ≠ [46] → name ≠ [46, 46] →
    (name ∈ dir.entries.map DirEnt.name ↔ (childAt fs layer base name).isSome = true)
  whiteout : ∀ name i, childAt fs layer base name = some i →
    (dir.whiteout name = true ↔ (fs.inode layer i).kind = .whiteout)

/-- The directory that `ovl_dir_read_merged` reads for an entry. -/
def OvlEntry.streams (p : OvlEntry) (streams : ℕ → ℕ → RealDir)
    (hne : p.upper.isSome ∨ p.lowerstack ≠ []) : OvlDir where
  upper := p.upper.map (streams 0)
  lowers := p.lowerstack.map fun l => streams l.idx l.ino
  layers_ne := by
    cases hne with
    | inl h => exact .inl (by rw [Option.isSome_map, h])
    | inr h => exact .inr (by simpa using h)

theorem OvlEntry.forall₂_streams {p : OvlEntry} {streams : ℕ → ℕ → RealDir}
    (hne : p.upper.isSome ∨ p.lowerstack ≠ [])
    (h : ∀ l ∈ p.layers, Mirrors fs l.idx l.ino (streams l.idx l.ino)) :
    List.Forall₂ (fun l L => Mirrors fs l.idx l.ino L.1) p.layers
      (p.streams streams hne).layers := by
  have hlower : ∀ ls : List LowerPath, (∀ l ∈ ls, l ∈ p.layers) →
      List.Forall₂ (fun l L => Mirrors fs l.idx l.ino L.1) ls
        ((ls.map fun l => streams l.idx l.ino).map (·, false)) := by
    intro ls hls
    induction ls with
    | nil => exact .nil
    | cons l ls ih =>
      exact .cons (h l (hls l List.mem_cons_self))
        (ih fun l' hl' => hls l' (List.mem_cons_of_mem _ hl'))
  cases hu : p.upper with
  | none =>
    have hs : (p.streams streams hne).layers =
        (p.lowerstack.map fun l => streams l.idx l.ino).map (·, false) := by
      simp [OvlDir.layers, OvlEntry.streams, hu]
    have hl : p.layers = p.lowerstack := by simp [OvlEntry.layers, hu]
    rw [hs, hl]
    exact hlower _ (by rw [hl]; exact fun l hl => hl)
  | some u =>
    have hs : (p.streams streams hne).layers = (streams 0 u, true) ::
        (p.lowerstack.map fun l => streams l.idx l.ino).map (·, false) := by
      simp [OvlDir.layers, OvlEntry.streams, hu]
    have hl := OvlEntry.layers_upper hu
    rw [hs, hl]
    refine .cons (h ⟨0, u⟩ (by rw [hl]; exact List.mem_cons_self)) (hlower _ ?_)
    rw [hl]
    exact fun l hl => List.mem_cons_of_mem _ hl

theorem lists_of_forall₂ {ls : List LowerPath} {Ls : List (RealDir × Bool)}
    (h : List.Forall₂ (fun l L => Mirrors fs l.idx l.ino L.1) ls Ls) :
    ∀ L ∈ Ls, L.1.Lists := by
  induction h with
  | nil => exact fun L hL => absurd hL List.not_mem_nil
  | cons hm _ ih =>
    intro L hL
    obtain rfl | hL := List.mem_cons.mp hL
    · exact hm.lists
    · exact ih L hL

/-- The topmost listed entry is the topmost inode. -/
theorem visible_iff_topmost {ls : List LowerPath} {Ls : List (RealDir × Bool)}
    (hdot : name ≠ [46]) (hdotdot : name ≠ [46, 46])
    (h : List.Forall₂ (fun l L => Mirrors fs l.idx l.ino L.1) ls Ls) :
    Visible fs name ls ↔
      ∃ L de, topmost Ls name = some (L, de) ∧ L.1.whiteout name = false := by
  induction h with
  | nil =>
    refine ⟨fun hv => absurd hv not_visible_nil, ?_⟩
    rintro ⟨L, de, hL, -⟩
    cases hL
  | @cons l L ls Ls hm _ ih =>
    have hlisted := hm.listed name hdot hdotdot
    cases hfind : L.1.entries.find? (fun e => decide (e.name = name)) with
    | none =>
      have hchild : childAt fs l.idx l.ino name = none := by
        rw [← Option.not_isSome_iff_eq_none, ← hlisted]
        exact find?_name_none.mp hfind
      rw [visible_cons_absent hchild, topmost_cons_none hfind, ih]
    | some de =>
      obtain ⟨hde, hname⟩ := (find?_name_some hm.lists.nodup).mp hfind
      have hmem : name ∈ L.1.entries.map DirEnt.name := List.mem_map.mpr ⟨de, hde, hname⟩
      obtain ⟨i, hchild⟩ := Option.isSome_iff_exists.mp (hlisted.mp hmem)
      rw [visible_cons_present hchild, topmost_cons_some hfind, ne_eq,
        ← hm.whiteout name i hchild, Bool.not_eq_true]
      constructor
      · intro hw
        exact ⟨L, de, rfl, hw⟩
      · rintro ⟨L', de', heq, hw⟩
        obtain ⟨rfl, rfl⟩ := Prod.mk.inj (Option.some.inj heq)
        exact hw

/-- `ovl_lookup` finds a name just when `ovl_dir_read_merged` lists it without marking it
a whiteout. -/
theorem lookup_agrees_with_listing (m : Mount) (fs : Layers) (streams : ℕ → ℕ → RealDir)
    (color : BinaryTree ℕ → BinaryTree ℕ)
    (hcolor : ∀ t, SearchTree.inorder (color t) = SearchTree.inorder t) (xino impure : Bool)
    (p : OvlEntry) (hne : p.upper.isSome ∨ p.lowerstack ≠ [])
    (hmirrors : ∀ l ∈ p.layers, Mirrors fs l.idx l.ino (streams l.idx l.ino))
    (name : List UInt8) (hdot : name ≠ [46]) (hdotdot : name ≠ [46, 46])
    (r : Found) (hlookup : ovlLookup m fs p name = .ok r) (es : List CacheEntry)
    (hread : ovlDirReadMerged color xino impure (p.streams streams hne) = (0, es)) :
    r.positive = true ↔ ∃ e ∈ es, e.name = name ∧ e.isWhiteout = false := by
  have hforall := OvlEntry.forall₂_streams hne hmirrors
  have hdirs := lists_of_forall₂ hforall
  rw [positive_iff_visible hlookup, visible_iff_topmost hdot hdotdot hforall]
  constructor
  · rintro ⟨L, de, htop, hw⟩
    obtain ⟨hL, hde, hname⟩ := mem_of_topmost hdirs htop
    refine ⟨finalEntry ⟨L.2, false, xino, impure⟩ L.1 de, ?_, hname, ?_⟩
    · apply (mem_ovlDirReadMerged hcolor hdirs hread _).mpr
      refine ⟨L, de, ?_, rfl⟩
      rw [← htop, ← hname]
      rfl
    · rw [finalEntry_isWhiteout _ (hdirs L hL) hde, hname, hw]
  · rintro ⟨e, he, rfl, hw⟩
    obtain ⟨L, de, htop, heq⟩ := (mem_ovlDirReadMerged hcolor hdirs hread e).mp he
    obtain ⟨hL, hde, hname⟩ := mem_of_topmost hdirs htop
    rw [heq, finalEntry_isWhiteout _ (hdirs L hL) hde, hname] at hw
    exact ⟨L, de, htop, hw⟩

/-- A mount with no options and one lower layer. -/
def plainMount : Mount where
  redirectDir := false
  redirectFollow := false
  metacopy := false
  index := false
  nfsExport := false
  noxattr := false
  indexdir := false
  namelen := 255
  root := [⟨1, 1⟩]
  checkOrigin _ := .ok none
  fixOrigin _ _ := none
  verifyOrigin _ _ := none
  lookupIndex _ _ := .ok none
  getInode _ _ := none
  remote _ := false

def plainInode (kind : RealKind) : LayerInode where
  kind := kind
  isOpaque := false
  redirect := .ok none
  metacopy := .ok false
  weird := false
  trap := false

/-- Inode 1 is the root of both layers. The upper layer has a whiteout over `a`, the lower
one has the files `a` and `c`. -/
def hiddenFile : Layers where
  inode layer i := plainInode
    (if i = 1 then .dir else if layer = 0 then .whiteout else .reg)
  lookup layer i name := .ok (
    if i = 1 ∧ name = [97] then some 2
    else if i = 1 ∧ layer = 1 ∧ name = [99] then some 3
    else none)

def hiddenStreams (layer _ : ℕ) : RealDir :=
  if layer = 0 then ⟨none, [([⟨[97], 2, DT_CHR⟩], none)], fun n => n == [97], none⟩
  else ⟨none, [([⟨[97], 2, 8⟩, ⟨[99], 3, 8⟩], none)], fun _ => false, none⟩

theorem lookup_agrees_with_listing_hidden :
    let p : OvlEntry := ⟨some 1, [⟨1, 1⟩]⟩
    let es : List CacheEntry := [⟨[97], 2, 2, 2, true, true⟩, ⟨[99], 8, 3, 3, false, false⟩]
    ∃ r, ovlLookup plainMount hiddenFile p [99] = .ok r ∧
      ovlDirReadMerged id false false (p.streams hiddenStreams (.inl rfl)) = (0, es) ∧
      (r.positive = true ↔ ∃ e ∈ es, e.name = [99] ∧ e.isWhiteout = false) := by
  intro p es
  have hlookup : ovlLookup plainMount hiddenFile p [99] =
      .ok ⟨⟨none, [⟨1, 3⟩]⟩, false, false, none⟩ := rfl
  have hread : ovlDirReadMerged id false false (p.streams hiddenStreams (.inl rfl)) =
      (0, es) := by decide
  refine ⟨_, hlookup, hread, ?_⟩
  refine lookup_agrees_with_listing plainMount hiddenFile hiddenStreams id (fun _ => rfl)
    false false p (.inl rfl) ?_ [99] (by decide) (by decide) _ hlookup es hread
  intro l hl
  obtain rfl | rfl := (by simpa [p, OvlEntry.layers] using hl : l = ⟨0, 1⟩ ∨ l = ⟨1, 1⟩)
  · refine ⟨⟨by decide, by decide, by decide⟩, fun name _ _ => ?_, fun name i hi => ?_⟩
    · change name ∈ [[97]] ↔ _
      by_cases hn : name = [97] <;> simp [childAt, hiddenFile, hn]
    · by_cases hn : name = [97] <;>
        simp_all [childAt, hiddenFile, hiddenStreams, plainInode]
      omega
  · refine ⟨⟨by decide, by decide, by decide⟩, fun name _ _ => ?_, fun name i hi => ?_⟩
    · change name ∈ [[97], [99]] ↔ _
      by_cases hn : name = [97]
      · simp [childAt, hiddenFile, hn]
      · by_cases hc : name = [99] <;> simp [childAt, hiddenFile, hn, hc]
    · by_cases hone : i = 1 <;> simp [hiddenFile, hiddenStreams, plainInode, hone]

end Listing

end FzzOverlay
