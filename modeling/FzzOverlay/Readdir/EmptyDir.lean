import FzzOverlay.Readdir.Union

/-!
# Is a merged directory empty

`ovl_check_empty_dir` of `readdir.c`, which reads the merged directory and takes the list
apart while it walks through it, and `ovl_cleanup_whiteouts`, which removes what is left of the
list from the upper directory.

## Main definitions

- `ovlCheckEmptyDir` — the return value, and the list that the caller gets
- `ovlCleanupWhiteouts` — the upper directory after the cleanup, and how often it warned

## Main result

- `empty_check_exact`
-/

namespace FzzOverlay.EmptyDir

open SearchTree

def ENOTEMPTY : Errno := ⟨39, by decide⟩

/-- The names that do not count: `.` and `..`. -/
def isDots (p : CacheEntry) : Bool :=
  p.name.head? = some 46 && (p.name.length = 1 || (p.name.length = 2 && p.name[1]? = some 46))

/-- The loop of `ovl_check_empty_dir`: the return value and what stays in the list. -/
def checkList : List CacheEntry → ℤ × List CacheEntry
  | [] => (0, [])
  | p :: list =>
    if p.isWhiteout && p.isUpper then
      let r := checkList list
      (r.1, p :: r.2)
    else if p.isWhiteout || isDots p then checkList list
    else (ENOTEMPTY.ret, p :: list)

/-- `ovl_check_empty_dir` for the empty list that it is called with. -/
def ovlCheckEmptyDir (rbInsertColor : BinaryTree ℕ → BinaryTree ℕ) (xino impure : Bool)
    (d : OvlDir) : ℤ × List CacheEntry :=
  let r := ovlDirReadMerged rbInsertColor xino impure d
  if r.1 ≠ 0 then r else checkList r.2

/-- Which lookups in the upper directory fail, and which entries are not removed. -/
structure CleanupEnv where
  lookup : List UInt8 → Option Errno
  remove : List UInt8 → Option Errno

/-- The names in the upper directory, and how often `WARN_ON` was hit. -/
structure Upper where
  names : List (List UInt8)
  warnings : ℕ

/-- `ovl_cleanup`. -/
def ovlCleanup (env : CleanupEnv) (name : List UInt8) (upper : Upper) : Upper :=
  match env.remove name with
  | some _ => upper
  | none => { upper with names := upper.names.filter fun n => n ≠ name }

/-- `ovl_cleanup_whiteouts`. -/
def ovlCleanupWhiteouts (env : CleanupEnv) : List CacheEntry → Upper → Upper
  | [], upper => upper
  | p :: list, upper =>
    if !p.isWhiteout || !p.isUpper then
      ovlCleanupWhiteouts env list { upper with warnings := upper.warnings + 1 }
    else
      match env.lookup p.name with
      | some _ => ovlCleanupWhiteouts env list upper
      | none =>
        if upper.names.contains p.name then
          ovlCleanupWhiteouts env list (ovlCleanup env p.name upper)
        else ovlCleanupWhiteouts env list upper

section List

variable {p : CacheEntry} {es : List CacheEntry}

theorem isDots_iff : isDots p = true ↔ p.name = [46] ∨ p.name = [46, 46] := by
  rw [isDots]
  match p.name with
  | [] => simp
  | [a] => simp
  | [a, b] => simp
  | a :: b :: c :: l => simp

/-- The list is taken apart to its end when it has nothing but whiteouts and dots. -/
theorem checkList_fst : (checkList es).1 = 0 ↔ ∀ p ∈ es, p.isWhiteout = true ∨ isDots p = true := by
  induction es with
  | nil => simp [checkList]
  | cons p es ih =>
    rw [List.forall_mem_cons, ← ih, checkList]
    split
    · next h =>
      rw [Bool.and_eq_true] at h
      simp [h.1]
    split
    · next h =>
      rw [Bool.or_eq_true] at h
      simp only [h, true_and]
    · next h =>
      rw [Bool.or_eq_true] at h
      have hret : ENOTEMPTY.ret ≠ 0 := Int.ne_of_lt ENOTEMPTY.ret_neg
      simp only [hret, h, false_and]

/-- What it leaves are the upper whiteouts. -/
theorem checkList_snd (h : (checkList es).1 = 0) :
    (checkList es).2 = es.filter fun p => p.isWhiteout && p.isUpper := by
  induction es with
  | nil => rfl
  | cons p es ih =>
    rw [checkList] at h ⊢
    split at h
    · next hup =>
      rw [if_pos hup, List.filter_cons_of_pos (by exact hup)]
      simp only [ih h]
    split at h
    · next hup hdel =>
      rw [if_neg hup, if_pos hdel, List.filter_cons_of_neg (by exact hup), ih h]
    · exact absurd h (Int.ne_of_lt ENOTEMPTY.ret_neg)

end List

section Cleanup

variable {env : CleanupEnv} {p : CacheEntry} {es : List CacheEntry} {upper : Upper}
  {name : List UInt8}

theorem ovlCleanup_names_subset (h : name ∈ (ovlCleanup env p.name upper).names) :
    name ∈ upper.names := by
  rw [ovlCleanup] at h
  split at h
  · exact h
  · exact (List.mem_filter.mp h).1

theorem ovlCleanup_warnings : (ovlCleanup env name upper).warnings = upper.warnings := by
  rw [ovlCleanup]
  split <;> rfl

/-- The cleanup only removes names. -/
theorem ovlCleanupWhiteouts_subset (h : name ∈ (ovlCleanupWhiteouts env es upper).names) :
    name ∈ upper.names := by
  induction es generalizing upper with
  | nil => exact h
  | cons p es ih =>
    rw [ovlCleanupWhiteouts] at h
    split at h
    · exact @ih { upper with warnings := upper.warnings + 1 } h
    split at h
    · exact ih h
    split at h
    · exact ovlCleanup_names_subset (ih h)
    · exact ih h

/-- A list of upper whiteouts gives no warning. -/
theorem ovlCleanupWhiteouts_warnings
    (hes : ∀ p ∈ es, p.isWhiteout = true ∧ p.isUpper = true) :
    (ovlCleanupWhiteouts env es upper).warnings = upper.warnings := by
  induction es generalizing upper with
  | nil => rfl
  | cons p es ih =>
    obtain ⟨⟨hw, hu⟩, hes⟩ := List.forall_mem_cons.mp hes
    rw [ovlCleanupWhiteouts, if_neg (by simp [hw, hu])]
    split
    · exact ih hes
    split
    · rw [ih hes, ovlCleanup_warnings]
    · exact ih hes

/-- An entry of the list stays only when its lookup or its removal fails. -/
theorem ovlCleanupWhiteouts_stays (hes : ∀ p ∈ es, p.isWhiteout = true ∧ p.isUpper = true)
    (hp : p ∈ es) (h : p.name ∈ (ovlCleanupWhiteouts env es upper).names) :
    (env.lookup p.name).isSome = true ∨ (env.remove p.name).isSome = true := by
  induction es generalizing upper with
  | nil => cases hp
  | cons q es ih =>
    obtain ⟨⟨hw, hu⟩, hes⟩ := List.forall_mem_cons.mp hes
    rw [ovlCleanupWhiteouts, if_neg (by simp [hw, hu])] at h
    obtain rfl | hp := List.mem_cons.mp hp
    · cases hlookup : env.lookup p.name with
      | some e => exact .inl rfl
      | none =>
        simp only [hlookup] at h
        split at h
        · have hleft := ovlCleanupWhiteouts_subset h
          rw [ovlCleanup] at hleft
          split at hleft
          · next hremove => exact .inr (by rw [hremove]; rfl)
          · simp at hleft
        · next hno =>
          exact absurd (List.contains_iff_mem.mpr (ovlCleanupWhiteouts_subset h)) hno
    · split at h
      · exact ih hes hp h
      split at h
      · exact ih hes hp h
      · exact ih hes hp h

end Cleanup

section Reading

/-- A real directory that is opened, locked and read without an error. -/
structure Readable (dir : RealDir) : Prop where
  opens : dir.openFails = none
  locks : dir.lockFails = none
  reads : ∀ r ∈ dir.reads, r.2 = none

variable {color : BinaryTree ℕ → BinaryTree ℕ} {xino impure : Bool}

theorem iterateLoop_fst {ctx : RddCtx} {reads : List (List DirEnt × Option Errno)} {rdd : Rdd}
    (h : ∀ r ∈ reads, r.2 = none) : (iterateLoop color ctx reads rdd).1 = 0 := by
  induction reads generalizing rdd with
  | nil => rfl
  | cons r reads ih =>
    obtain ⟨es, err⟩ := r
    obtain ⟨herr, hrest⟩ := List.forall_mem_cons.mp h
    obtain rfl : err = none := herr
    rw [iterateLoop]
    split
    · rfl
    · exact ih hrest

theorem ovlDirRead_fst {ctx : RddCtx} {dir : RealDir} {rdd : Rdd} (h : Readable dir) :
    (ovlDirRead color ctx dir rdd).1 = 0 := by
  simp only [ovlDirRead, h.opens]
  split
  · rw [ovlCheckWhiteouts, h.locks]
  · exact iterateLoop_fst h.reads

theorem readLayers_fst {layers : List (RealDir × Bool)} {rdd : Rdd}
    (h : ∀ L ∈ layers, Readable L.1) : (readLayers color xino impure layers rdd).1 = 0 := by
  induction layers generalizing rdd with
  | nil => rfl
  | cons L layers ih =>
    obtain ⟨dir, up⟩ := L
    obtain ⟨hdir, hrest⟩ := List.forall_mem_cons.mp h
    cases layers with
    | nil => exact ovlDirRead_fst hdir
    | cons L layers =>
      rw [readLayers, if_neg (not_not.mpr (ovlDirRead_fst hdir))]
      exact ih hrest

end Reading

section Upper

variable {d : OvlDir} {name : List UInt8}

/-- Every name of the upper directory has its topmost entry there. -/
theorem topmost_upper {L : RealDir × Bool} {de : DirEnt} (hdirs : ∀ L ∈ d.layers, L.1.Lists)
    (hname : de.name = name) :
    (topmost d.layers name = some (L, de) ∧ L.2 = true) ↔
      d.upper = some L.1 ∧ L.2 = true ∧ de ∈ L.1.entries := by
  obtain ⟨dir, up⟩ := L
  constructor
  · rintro ⟨htop, hup⟩
    obtain ⟨hL, hde, -⟩ := mem_of_topmost hdirs htop
    refine ⟨?_, hup, hde⟩
    rw [OvlDir.layers, List.mem_append] at hL
    obtain hL | hL := hL
    · rw [Option.mem_toList, Option.map_eq_some_iff] at hL
      obtain ⟨dir', hdir, heq⟩ := hL
      cases heq
      exact hdir
    · obtain ⟨dir', -, heq⟩ := List.mem_map.mp hL
      cases heq
      cases hup
  · rintro ⟨hupper, hup, hde⟩
    simp only at hupper hup hde
    subst hup
    have hlists : dir.Lists := hdirs (dir, true) (by simp [OvlDir.layers, hupper])
    refine ⟨?_, rfl⟩
    rw [OvlDir.layers, hupper]
    exact topmost_cons_some ((find?_name_some hlists.nodup).mpr ⟨hde, hname⟩)

end Upper

section Exact

variable {color : BinaryTree ℕ → BinaryTree ℕ} {xino impure : Bool} {d : OvlDir}

/-- The check passes when the list was read and every name but the dots is a whiteout. -/
theorem ovlCheckEmptyDir_eq_zero_iff (hcolor : ∀ t, inorder (color t) = inorder t)
    (hdirs : ∀ L ∈ d.layers, L.1.Lists) : (ovlCheckEmptyDir color xino impure d).1 = 0 ↔
    (ovlDirReadMerged color xino impure d).1 = 0 ∧
      ∀ name L de, name ≠ [46] → name ≠ [46, 46] → topmost d.layers name = some (L, de) →
        L.1.whiteout name = true := by
  rw [ovlCheckEmptyDir]
  by_cases hread : (ovlDirReadMerged color xino impure d).1 ≠ 0
  · rw [if_pos hread]
    exact ⟨fun h => absurd h hread, fun h => absurd h.1 hread⟩
  have hzero := not_not.mp hread
  have heq : ovlDirReadMerged color xino impure d =
      (0, (ovlDirReadMerged color xino impure d).2) := Prod.ext hzero rfl
  have hmem := mem_ovlDirReadMerged hcolor hdirs heq
  rw [if_neg hread, checkList_fst, and_iff_right hzero]
  constructor
  · intro h name L de hdot hdots htop
    obtain ⟨hL, hde, rfl⟩ := mem_of_topmost hdirs htop
    obtain hw | hw := h _ ((hmem (finalEntry ⟨L.2, false, xino, impure⟩ L.1 de)).mpr
      ⟨L, de, htop, rfl⟩)
    · rwa [finalEntry_isWhiteout _ (hdirs L hL) hde] at hw
    · exact absurd (isDots_iff.mp hw) (not_or.mpr ⟨hdot, hdots⟩)
  · intro h p hp
    obtain ⟨L, de, htop, hpe⟩ := (hmem p).mp hp
    obtain ⟨hL, hde, hname⟩ := mem_of_topmost hdirs htop
    by_cases hdots : isDots p = true
    · exact .inr hdots
    · rw [isDots_iff, not_or] at hdots
      refine .inl ?_
      rw [hpe, finalEntry_isWhiteout _ (hdirs L hL) hde, hname]
      exact h p.name L de hdots.1 hdots.2 htop

/-- What the list holds when the check passes. -/
theorem mem_ovlCheckEmptyDir (hcolor : ∀ t, inorder (color t) = inorder t)
    (hdirs : ∀ L ∈ d.layers, L.1.Lists) (h : (ovlCheckEmptyDir color xino impure d).1 = 0) :
    (ovlCheckEmptyDir color xino impure d).2 =
        (ovlDirReadMerged color xino impure d).2.filter (fun p => p.isWhiteout && p.isUpper) ∧
      ∀ name, name ∈ (ovlCheckEmptyDir color xino impure d).2.map CacheEntry.name ↔
        ∃ dir, d.upper = some dir ∧ name ∈ dir.entries.map DirEnt.name ∧
          dir.whiteout name = true := by
  have hzero := ((ovlCheckEmptyDir_eq_zero_iff hcolor hdirs).mp h).1
  have heq : ovlDirReadMerged color xino impure d =
      (0, (ovlDirReadMerged color xino impure d).2) := Prod.ext hzero rfl
  have hmem := mem_ovlDirReadMerged hcolor hdirs heq
  rw [ovlCheckEmptyDir, if_neg (not_not.mpr hzero)] at h ⊢
  have hlist := checkList_snd h
  refine ⟨hlist, fun name => ?_⟩
  rw [hlist]
  constructor
  · intro hname
    obtain ⟨p, hp, rfl⟩ := List.mem_map.mp hname
    obtain ⟨hp, hkind⟩ := List.mem_filter.mp hp
    obtain ⟨hw, hu⟩ := Bool.and_eq_true_iff.mp hkind
    obtain ⟨L, de, htop, hpe⟩ := (hmem p).mp hp
    have hup : L.2 = true := by
      rw [hpe] at hu
      exact hu
    obtain ⟨hL, hde, hsame⟩ := mem_of_topmost hdirs htop
    obtain ⟨hupper, -, -⟩ := (topmost_upper hdirs hsame).mp ⟨htop, hup⟩
    refine ⟨L.1, hupper, List.mem_map.mpr ⟨de, hde, hsame⟩, ?_⟩
    rw [hpe, finalEntry_isWhiteout _ (hdirs L hL) hde, hsame] at hw
    exact hw
  · rintro ⟨dir, hupper, hname, hw⟩
    obtain ⟨de, hde, rfl⟩ := List.mem_map.mp hname
    obtain ⟨htop, -⟩ := (topmost_upper (L := (dir, true)) hdirs rfl).mpr ⟨hupper, rfl, hde⟩
    have hL := (mem_of_topmost hdirs htop).1
    refine List.mem_map.mpr ⟨finalEntry ⟨true, false, xino, impure⟩ dir de, ?_, rfl⟩
    refine List.mem_filter.mpr ⟨(hmem _).mpr ⟨(dir, true), de, htop, rfl⟩, ?_⟩
    rw [finalEntry_isWhiteout _ (hdirs _ hL) hde, hw]
    rfl

/-- Checking that a merged directory is empty. The check passes if the layers can be read and
every name but `.` and `..` has a whiteout as its topmost entry, and only then; the list it
leaves has every whiteout of the upper directory once and nothing else, so that the cleanup
gives no warning, and leaves a whiteout in the upper directory only if the lookup or the
removal of that very whiteout failed. -/
theorem empty_check_exact (color : BinaryTree ℕ → BinaryTree ℕ)
    (hcolor : ∀ t, inorder (color t) = inorder t) (xino impure : Bool) (d : OvlDir)
    (hdirs : ∀ L ∈ d.layers, L.1.Lists) :
    ((∀ L ∈ d.layers, Readable L.1) → (ovlDirReadMerged color xino impure d).1 = 0) ∧
      ((ovlCheckEmptyDir color xino impure d).1 = 0 ↔
        (ovlDirReadMerged color xino impure d).1 = 0 ∧
          ∀ name L de, name ≠ [46] → name ≠ [46, 46] → topmost d.layers name = some (L, de) →
            L.1.whiteout name = true) ∧
      ((ovlCheckEmptyDir color xino impure d).1 = 0 →
        ((ovlCheckEmptyDir color xino impure d).2.map CacheEntry.name).Nodup ∧
        (∀ p ∈ (ovlCheckEmptyDir color xino impure d).2,
          p.isWhiteout = true ∧ p.isUpper = true) ∧
        (∀ name, name ∈ (ovlCheckEmptyDir color xino impure d).2.map CacheEntry.name ↔
          ∃ dir, d.upper = some dir ∧ name ∈ dir.entries.map DirEnt.name ∧
            dir.whiteout name = true) ∧
        ∀ env dir, d.upper = some dir →
          (ovlCleanupWhiteouts env (ovlCheckEmptyDir color xino impure d).2
            ⟨dir.entries.map DirEnt.name, 0⟩).warnings = 0 ∧
          ∀ name ∈ (ovlCleanupWhiteouts env (ovlCheckEmptyDir color xino impure d).2
            ⟨dir.entries.map DirEnt.name, 0⟩).names, dir.whiteout name = true →
              (env.lookup name).isSome = true ∨ (env.remove name).isSome = true) := by
  refine ⟨readLayers_fst, ovlCheckEmptyDir_eq_zero_iff hcolor hdirs, fun h => ?_⟩
  obtain ⟨hlist, hnames⟩ := mem_ovlCheckEmptyDir hcolor hdirs h
  have hkind : ∀ p ∈ (ovlCheckEmptyDir color xino impure d).2,
      p.isWhiteout = true ∧ p.isUpper = true := by
    intro p hp
    rw [hlist] at hp
    exact Bool.and_eq_true_iff.mp (List.mem_filter.mp hp).2
  refine ⟨?_, hkind, hnames, fun env dir hupper => ⟨?_, fun name hname hw => ?_⟩⟩
  · have hzero := ((ovlCheckEmptyDir_eq_zero_iff hcolor hdirs).mp h).1
    have hperm := perm_ovlDirReadMerged xino impure hcolor hdirs hzero
    have hnodup := nodup_addLayers xino impure hdirs
      (show (entryNames []).Nodup from List.nodup_nil)
    rw [hlist]
    exact ((hperm.map _).nodup_iff.mpr hnodup).sublist (List.filter_sublist.map _)
  · exact ovlCleanupWhiteouts_warnings hkind
  · obtain ⟨p, hp, rfl⟩ := List.mem_map.mp
      ((hnames name).mpr ⟨dir, hupper, ovlCleanupWhiteouts_subset hname, hw⟩)
    exact ovlCleanupWhiteouts_stays hkind hp hname

/-- An upper directory with a whiteout over the only file of a lower one. -/
def whiteoutOverAll : OvlDir where
  upper := some ⟨none, [([⟨[46], 1, 4⟩, ⟨[46, 46], 2, 4⟩, ⟨[97], 3, DT_CHR⟩], none)],
    fun n => n == [97], none⟩
  lowers := [⟨none, [([⟨[97], 4, 8⟩], none), ([⟨[46], 5, 4⟩], none)], fun _ => false, none⟩]
  layers_ne := .inl rfl

theorem empty_check_exact_whiteout :
    (ovlCheckEmptyDir id false false whiteoutOverAll).1 = 0 ∧
      ((ovlCheckEmptyDir id false false whiteoutOverAll).2.map CacheEntry.name).Nodup ∧
      ([97] : List UInt8) ∈
        (ovlCheckEmptyDir id false false whiteoutOverAll).2.map CacheEntry.name := by
  have hdirs : ∀ L ∈ whiteoutOverAll.layers, L.1.Lists := by
    intro L hL
    simp only [whiteoutOverAll, OvlDir.layers, Option.map_some, Option.toList_some,
      List.map_cons, List.map_nil, List.singleton_append, List.mem_cons, List.not_mem_nil,
      or_false] at hL
    obtain rfl | rfl := hL
    · exact ⟨by decide, by decide, by decide⟩
    · exact ⟨by decide, by decide, by decide⟩
  have hzero : (ovlCheckEmptyDir id false false whiteoutOverAll).1 = 0 := by decide
  obtain ⟨hnodup, -, hnames, -⟩ :=
    (empty_check_exact id (fun _ => rfl) false false whiteoutOverAll hdirs).2.2 hzero
  refine ⟨hzero, hnodup, (hnames [97]).mpr ⟨_, rfl, by decide, by decide⟩⟩

end Exact

end FzzOverlay.EmptyDir
