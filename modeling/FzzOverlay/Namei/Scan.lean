import FzzOverlay.Namei.Lookup

/-!
# The lower stack as a scan of the layers

What `ovl_lookup` is for, if no entry is redirected: the entries of the name in the
directories of the parent, from the top down to the first one that hides the rest. The
flags of `struct ovl_lookup_data` and the shortcut for the last layer come to the same.
-/

namespace FzzOverlay

/-- The entries found below, given whether something was found above. -/
def scanLower (fs : Layers) (name : List UInt8) : Bool → List LowerPath → List LowerPath
  | _, [] => []
  | found, lower :: rest =>
    match childAt fs lower.idx lower.ino name with
    | none => scanLower fs name found rest
    | some i =>
      match (fs.inode lower.idx i).kind with
      | .whiteout => []
      | .dir =>
        ⟨lower.idx, i⟩ ::
          if (fs.inode lower.idx i).isOpaque then [] else scanLower fs name true rest
      | _ => if found then [] else [⟨lower.idx, i⟩]

/-- The scan of all layers of a directory. The upper entry counts as found, and ends the
scan if it is a whiteout or opaque. -/
def scanLayers (fs : Layers) (parent : OvlEntry) (name : List UInt8) : List LowerPath :=
  match parent.upper.bind fun u => childAt fs 0 u name with
  | none => scanLower fs name false parent.lowerstack
  | some i =>
    if (fs.inode 0 i).kind = .whiteout ∨ (fs.inode 0 i).isOpaque then []
    else scanLower fs name true parent.lowerstack

/-- Looking the name up in a directory does not fail, and what is there has neither a
redirect nor `metacopy`. -/
structure PlainEntry (fs : Layers) (layer base : ℕ) (name : List UInt8) : Prop where
  lookup : ∀ e, fs.lookup layer base name = .error e →
    e.ret = ENOENT.ret ∨ e.ret = ENAMETOOLONG.ret
  weird : ∀ i, childAt fs layer base name = some i → (fs.inode layer i).weird = false
  trap : ∀ i, childAt fs layer base name = some i → (fs.inode layer i).trap = false
  redirect : ∀ i, childAt fs layer base name = some i → (fs.inode layer i).redirect = .ok none
  metacopy : ∀ i, childAt fs layer base name = some i → (fs.inode layer i).metacopy = .ok false

/-- The layers of a stack in order, none behind the last layer. -/
def InOrder (m : Mount) (ls : List LowerPath) : Prop :=
  (ls.map LowerPath.idx).Pairwise (· < ·) ∧ ∀ l ∈ ls, l.idx ≤ m.root.length

/-- Only the last directory of a stack can be in the last layer, so `d.last` is set only
there. -/
theorem rest_nil_of_lowerLast {m : Mount} {lower : LowerPath} {rest : List LowerPath}
    (h : InOrder m (lower :: rest)) (hlast : lowerLast m lower rest = true) : rest = [] := by
  unfold lowerLast at hlast
  cases rest with
  | nil => rfl
  | cons next rest =>
    obtain ⟨horder, hle⟩ := h
    have hlt : lower.idx < next.idx := by
      rw [List.map_cons, List.pairwise_cons] at horder
      exact horder.1 _ (by simp)
    have hnext := hle next (by simp)
    split at hlast
    · cases hlast
    · have heq := of_decide_eq_true hlast
      omega

theorem InOrder.tail {m : Mount} {lower : LowerPath} {rest : List LowerPath}
    (h : InOrder m (lower :: rest)) : InOrder m rest := by
  obtain ⟨horder, hle⟩ := h
  rw [List.map_cons, List.pairwise_cons] at horder
  exact ⟨horder.2, fun l hl => hle l (List.mem_cons_of_mem _ hl)⟩

section Single

variable {fs : Layers} {layer base : ℕ} {name : List UInt8} {d : LookupData}

theorem ovlCheckRedirect_plain {n : LayerInode} (h : n.redirect = .ok none) (d : LookupData)
    (pre : Option (List (List UInt8))) (post : List (List UInt8)) :
    ovlCheckRedirect n d pre post = .ok d := by
  rw [ovlCheckRedirect, h]

/-- An opaque directory ends the scan, except in the last layer, where nothing follows. -/
theorem ovlLookupSingle_plainDir (h : PlainEntry fs layer base name) {i : ℕ}
    (hchild : childAt fs layer base name = some i) (hkind : (fs.inode layer i).kind = .dir)
    (hmeta : d.metacopy = false) :
    ovlLookupSingle fs layer base d name none [] = .ok
      (if d.last = false ∧ (fs.inode layer i).isOpaque = true then
        { d with isDir := true, stop := true, isOpaque := true }
      else { d with isDir := true }, some i) := by
  unfold ovlLookupSingle
  simp only [childAt_eq_some fs hchild, h.weird i hchild, h.trap i hchild, hkind, hmeta,
    List.isEmpty_nil, Bool.or_true, Bool.false_eq_true, if_false, reduceCtorEq, false_and,
    and_false, ne_eq, not_true_eq_false,
    ovlCheckRedirect_plain (h.redirect i hchild)]
  cases d.last with
  | true => simp
  | false =>
    cases (fs.inode layer i).isOpaque with
    | true => simp
    | false => simp [Except.map]

/-- Anything else ends the scan; it counts if no directory was found above. -/
theorem ovlLookupSingle_file (h : PlainEntry fs layer base name) {i : ℕ}
    (hchild : childAt fs layer base name = some i) (hdir : (fs.inode layer i).kind ≠ .dir)
    (hwhite : (fs.inode layer i).kind ≠ .whiteout) (hmeta : d.metacopy = false) :
    ovlLookupSingle fs layer base d name none [] =
      .ok ({ d with stop := true }, if d.isDir then none else some i) := by
  have hxattr : ovlCheckMetacopyXattr (fs.inode layer i) = .ok false := by
    rw [ovlCheckMetacopyXattr]
    split
    · rfl
    · exact h.metacopy i hchild
  unfold ovlLookupSingle
  simp only [childAt_eq_some fs hchild, h.weird i hchild, hwhite, hdir, hmeta, hxattr,
    List.isEmpty_nil, Bool.false_eq_true, if_false, false_and, and_false, ne_eq, not_false_eq_true,
    if_true, Bool.not_true, Bool.not_false, or_false, true_or]
  cases hd : d.isDir with
  | true => simp
  | false =>
    cases d
    cases hmeta
    rfl

end Single

/-- Nothing that `ovl_lookup` does besides reading the layers fails, and the origin of
directories is not verified. -/
structure PlainMount (m : Mount) (fs : Layers) : Prop where
  fixOrigin : ∀ u l, m.fixOrigin u l = none
  verify : (m.nfsExport && m.index) = false
  remote : ∀ u, m.remote u = false
  lookupIndex : ∀ u l, ∃ i, m.lookupIndex u l = .ok i
  indexRedirect : ∀ i, ∃ r, (fs.inode 0 i).redirect = .ok r
  getInode : ∀ u ls, m.getInode u ls = none

section Loop

variable {m : Mount} {fs : Layers} {up : UpperLookup} {name : List UInt8}

/-- The flags while the scan goes on. -/
structure Scanning (name : List UInt8) (st : LowerLookup) : Prop where
  name_eq : st.d.name = .rel name
  redirect : st.d.redirect = none
  metacopy : st.d.metacopy = false
  anyMetacopy : st.metacopy = false

/-- An entry that is found goes on the stack. -/
theorem lowerPass_found (hm : PlainMount m fs) (horigin : up.originPath = none)
    {lower : LowerPath} {rest : List LowerPath} {st : LowerLookup} {d : LookupData} {i : ℕ}
    (hlook : ovlLookupLayer fs lower.idx lower.ino
      { st.d with last := lowerLast m lower rest } = .ok (d, some i))
    (hred : d.redirect = none) (hmeta : d.metacopy = false) (hany : st.metacopy = false) :
    ∃ o, lowerPass m fs up lower rest st = .ok (if d.stop
      then .break ⟨d, st.stack ++ [⟨lower.idx, i⟩], o, false⟩
      else .next ⟨d, st.stack ++ [⟨lower.idx, i⟩], o, false⟩) := by
  have hverify : ((d.isDir && m.nfsExport && m.index) ||
      (!d.isDir && m.index && up.originPath.isSome)) = false := by
    rw [horigin, Bool.and_assoc, hm.verify]
    simp
  have hfix : ∀ u l, (if !m.noxattr ∧ d.isDir then m.fixOrigin u l else none) = none := by
    intro u l
    rw [hm.fixOrigin u l]
    split <;> rfl
  have hstack : ∀ o, lowerPass.stackThis m st d ⟨lower.idx, i⟩ o = .ok (if d.stop
      then .break ⟨d, st.stack ++ [⟨lower.idx, i⟩], o, false⟩
      else .next ⟨d, st.stack ++ [⟨lower.idx, i⟩], o, false⟩) := by
    intro o
    simp only [lowerPass.stackThis, hred, hmeta, hany, Bool.false_eq_true, false_and, if_false,
      Option.isSome_none, Option.map_none, Option.getD_none, Bool.or_false]
    split <;> rfl
  refine ⟨st.origin, ?_⟩
  simp only [lowerPass, hlook, hverify, hfix, Bool.false_eq_true, if_false]
  cases up.upper with
  | none => exact hstack _
  | some u =>
    cases decide (st.stack = []) with
    | true => exact hstack _
    | false => exact hstack _

/-- What the loop over the lower layers ends with. -/
structure Scanned (fs : Layers) (name : List UInt8) (ls : List LowerPath) (st st' : LowerLookup) :
    Prop where
  stack : st'.stack = st.stack ++ scanLower fs name st.d.isDir ls
  isDir : st.d.isDir = true → st'.d.isDir = true
  metacopy : st'.metacopy = false

section ScanLower

variable {lower : LowerPath} {rest : List LowerPath} {found : Bool} {i : ℕ}

theorem scanLower_absent (hchild : childAt fs lower.idx lower.ino name = none) :
    scanLower fs name found (lower :: rest) = scanLower fs name found rest := by
  rw [scanLower, hchild]

theorem scanLower_whiteout (hchild : childAt fs lower.idx lower.ino name = some i)
    (hkind : (fs.inode lower.idx i).kind = .whiteout) :
    scanLower fs name found (lower :: rest) = [] := by
  simp only [scanLower, hchild, hkind]

theorem scanLower_dir (hchild : childAt fs lower.idx lower.ino name = some i)
    (hkind : (fs.inode lower.idx i).kind = .dir) :
    scanLower fs name found (lower :: rest) = ⟨lower.idx, i⟩ ::
      if (fs.inode lower.idx i).isOpaque then [] else scanLower fs name true rest := by
  simp only [scanLower, hchild, hkind]

theorem scanLower_file (hchild : childAt fs lower.idx lower.ino name = some i)
    (hwhite : (fs.inode lower.idx i).kind ≠ .whiteout)
    (hdir : (fs.inode lower.idx i).kind ≠ .dir) :
    scanLower fs name found (lower :: rest) = if found then [] else [⟨lower.idx, i⟩] := by
  simp only [scanLower, hchild]

end ScanLower

/-- The loop is the scan. -/
theorem poeLoop_scan (hm : PlainMount m fs) (horigin : up.originPath = none)
    {ls : List LowerPath} (horder : InOrder m ls)
    (hplain : ∀ l ∈ ls, PlainEntry fs l.idx l.ino name) {st : LowerLookup}
    (hst : Scanning name st) (hstop : st.d.stop = false) :
    ∃ st', poeLoop m fs up ls st = .ok st' ∧ Scanned fs name ls st st' := by
  induction ls generalizing st with
  | nil => exact ⟨st, rfl, (List.append_nil _).symm, id, hst.anyMetacopy⟩
  | cons lower rest ih =>
    have hentry := hplain lower List.mem_cons_self
    have hgo : ∀ u : LowerLookup, Scanning name u → u.d.stop = false →
        ∃ st', poeLoop m fs up rest u = .ok st' ∧ Scanned fs name rest u st' :=
      fun u => ih horder.tail fun l hl => hplain l (List.mem_cons_of_mem _ hl)
    set d : LookupData := { st.d with last := lowerLast m lower rest } with hd
    have hlook : ovlLookupLayer fs lower.idx lower.ino d =
        ovlLookupSingle fs lower.idx lower.ino d name none [] := by
      rw [ovlLookupLayer, show d.name = .rel name from hst.name_eq]
    have hmeta : d.metacopy = false := hst.metacopy
    rw [poeLoop, if_neg (by rw [hstop]; decide)]
    cases hchild : childAt fs lower.idx lower.ino name with
    | none =>
      rw [ovlLookupSingle_absent fs hchild hentry.lookup] at hlook
      obtain ⟨st', hrun, hscan⟩ := hgo { st with d := d }
        ⟨hst.name_eq, hst.redirect, hst.metacopy, hst.anyMetacopy⟩ hstop
      rw [lowerPass_absent hlook]
      refine ⟨st', hrun, ?_, hscan.isDir, hscan.metacopy⟩
      rw [hscan.stack, scanLower_absent hchild]
    | some i =>
      by_cases hwhite : (fs.inode lower.idx i).kind = .whiteout
      · rw [ovlLookupSingle_whiteout fs hchild (hentry.weird i hchild) hwhite] at hlook
        rw [lowerPass_absent hlook]
        refine ⟨_, poeLoop_of_stop rfl, ?_, id, hst.anyMetacopy⟩
        rw [scanLower_whiteout hchild hwhite, List.append_nil]
      by_cases hdir : (fs.inode lower.idx i).kind = .dir
      · rw [ovlLookupSingle_plainDir hentry hchild hdir hmeta] at hlook
        by_cases hopaque : d.last = false ∧ (fs.inode lower.idx i).isOpaque = true
        · rw [if_pos hopaque] at hlook
          obtain ⟨o, hpass⟩ := lowerPass_found hm horigin hlook hst.redirect hmeta hst.anyMetacopy
          rw [hpass]
          refine ⟨_, rfl, ?_, fun _ => rfl, rfl⟩
          rw [scanLower_dir hchild hdir, if_pos hopaque.2]
        · rw [if_neg hopaque] at hlook
          obtain ⟨o, hpass⟩ := lowerPass_found hm horigin hlook hst.redirect hmeta hst.anyMetacopy
          rw [if_neg (by rw [show d.stop = false from hstop]; decide)] at hpass
          rw [hpass]
          obtain ⟨st', hrun, hscan⟩ := hgo ⟨{ d with isDir := true },
            st.stack ++ [⟨lower.idx, i⟩], o, false⟩ ⟨hst.name_eq, hst.redirect, hmeta, rfl⟩ hstop
          refine ⟨st', hrun, ?_, fun _ => hscan.isDir rfl, hscan.metacopy⟩
          rw [hscan.stack, scanLower_dir hchild hdir, List.append_assoc, List.singleton_append]
          -- If the directory is opaque, `d.last` was set and there is no layer behind it.
          by_cases ho : (fs.inode lower.idx i).isOpaque = true
          · have hlast : lowerLast m lower rest = true := by
              by_contra hne
              exact hopaque ⟨eq_false_of_ne_true hne, ho⟩
            rw [if_pos ho, rest_nil_of_lowerLast horder hlast, scanLower]
          · rw [if_neg ho]
      · rw [ovlLookupSingle_file hentry hchild hdir hwhite hmeta] at hlook
        cases hfound : st.d.isDir with
        | true =>
          rw [if_pos hfound] at hlook
          rw [lowerPass_absent hlook]
          refine ⟨_, poeLoop_of_stop rfl, ?_, fun _ => hfound, hst.anyMetacopy⟩
          rw [scanLower_file hchild hwhite hdir, hfound, if_pos rfl, List.append_nil]
        | false =>
          rw [if_neg (by rw [show d.isDir = false from hfound]; decide)] at hlook
          obtain ⟨o, hpass⟩ := lowerPass_found hm horigin hlook hst.redirect hmeta hst.anyMetacopy
          rw [hpass]
          refine ⟨_, rfl, ?_, fun h => ?_, rfl⟩
          · rw [scanLower_file hchild hwhite hdir, hfound]
            rfl
          · rw [hfound] at h
            cases h

end Loop

section Whole

variable {m : Mount} {fs : Layers} {parent : OvlEntry} {name : List UInt8}

/-- The upper entry is absent, a whiteout or a directory. -/
def UpperMerges (fs : Layers) (parent : OvlEntry) (name : List UInt8) : Prop :=
  ∀ u i, parent.upper = some u → childAt fs 0 u name = some i →
    (fs.inode 0 i).kind = .whiteout ∨ (fs.inode 0 i).kind = .dir

/-- What the lookup in the upper layer leaves to the loop. -/
structure UpperScanned (fs : Layers) (parent : OvlEntry) (name : List UInt8) (up : UpperLookup) :
    Prop where
  scanning : Scanning name ⟨up.d, [], none, up.metacopy⟩
  origin : up.originPath = none
  isDir : up.upper.isSome = true → up.d.isDir = true
  stops : up.d.stop = true → scanLayers fs parent name = []
  goesOn : up.d.stop = false →
    scanLayers fs parent name = scanLower fs name up.d.isDir parent.lowerstack

theorem lookupUpper_scan (hm : PlainMount m fs)
    (hplain : ∀ u, parent.upper = some u → PlainEntry fs 0 u name)
    (hmerges : UpperMerges fs parent name) :
    ∃ up, lookupUpper m fs parent name = .ok up ∧ UpperScanned fs parent name up := by
  cases hparent : parent.upper with
  | none =>
    refine ⟨⟨initData m parent name, none, none, false⟩, ?_, ⟨rfl, rfl, rfl, rfl⟩, rfl, nofun,
      nofun, fun _ => ?_⟩
    · rw [lookupUpper, hparent]
    · rw [scanLayers, hparent]
      rfl
  | some u =>
    have hentry := hplain u hparent
    have hlayer : ovlLookupLayer fs 0 u (initData m parent name) =
        ovlLookupSingle fs 0 u (initData m parent name) name none [] := rfl
    cases hchild : childAt fs 0 u name with
    | none =>
      rw [ovlLookupSingle_absent fs hchild hentry.lookup] at hlayer
      refine ⟨⟨initData m parent name, none, none, false⟩, ?_, ⟨rfl, rfl, rfl, rfl⟩, rfl, nofun,
        nofun, fun _ => ?_⟩
      · simp only [lookupUpper, hparent, hlayer]
      · rw [scanLayers, hparent, Option.bind_some, hchild]
        rfl
    | some i =>
      have hscan : scanLayers fs parent name = if (fs.inode 0 i).kind = .whiteout ∨
          (fs.inode 0 i).isOpaque then [] else scanLower fs name true parent.lowerstack := by
        rw [scanLayers, hparent, Option.bind_some, hchild]
      rcases hmerges u i hparent hchild with hkind | hkind
      · rw [ovlLookupSingle_whiteout fs hchild (hentry.weird i hchild) hkind] at hlayer
        refine ⟨⟨{ initData m parent name with stop := true, isOpaque := true }, none, none, false⟩,
          ?_, ⟨rfl, rfl, rfl, rfl⟩, rfl, nofun, fun _ => ?_, nofun⟩
        · simp only [lookupUpper, hparent, hlayer]
        · rw [hscan, if_pos (.inl hkind)]
      · rw [ovlLookupSingle_plainDir hentry hchild hkind rfl] at hlayer
        by_cases hopaque : (initData m parent name).last = false ∧ (fs.inode 0 i).isOpaque = true
        · rw [if_pos hopaque] at hlayer
          refine ⟨⟨{ initData m parent name with isDir := true, stop := true, isOpaque := true },
            some i, none, false⟩, ?_, ⟨rfl, rfl, rfl, rfl⟩, rfl, fun _ => rfl, fun _ => ?_, nofun⟩
          · simp only [lookupUpper, hparent, hlayer, hm.remote i, Bool.false_eq_true, if_false,
              Bool.not_true]
          · rw [hscan, if_pos (.inr hopaque.2)]
        · rw [if_neg hopaque] at hlayer
          refine ⟨⟨{ initData m parent name with isDir := true }, some i, none, false⟩, ?_,
            ⟨rfl, rfl, rfl, rfl⟩, rfl, fun _ => rfl, nofun, fun _ => ?_⟩
          · simp only [lookupUpper, hparent, hlayer, hm.remote i, Bool.false_eq_true, if_false,
              Bool.not_true]
          · show scanLayers fs parent name = scanLower fs name true parent.lowerstack
            rw [hscan, hkind]
            by_cases ho : (fs.inode 0 i).isOpaque = true
            · -- The shortcut was taken because there is no lower layer.
              have hlast : (initData m parent name).last = true := by
                by_contra hne
                exact hopaque ⟨eq_false_of_ne_true hne, ho⟩
              have hnil : parent.lowerstack = [] := by
                simp only [initData] at hlast
                split at hlast
                · cases hlast
                · exact List.isEmpty_iff.mp hlast
              rw [if_pos (.inr ho), hnil, scanLower]
            · rw [if_neg (by simp [ho])]

/-- The lower stack that `ovl_lookup` stores is the scan of the layers of the parent, with
and without `redirect_follow`. -/
theorem lookup_lowerstack_scan (m : Mount) (fs : Layers) (parent : OvlEntry) (name : List UInt8)
    (hm : PlainMount m fs) (hlen : name.length ≤ m.namelen)
    (horder : InOrder m parent.lowerstack)
    (hupper : ∀ u, parent.upper = some u → PlainEntry fs 0 u name)
    (hlower : ∀ l ∈ parent.lowerstack, PlainEntry fs l.idx l.ino name)
    (hmerges : UpperMerges fs parent name) :
    ∃ r, ovlLookup m fs parent name = .ok r ∧
      r.entry.lowerstack = scanLayers fs parent name := by
  obtain ⟨up, hup, hscan⟩ := lookupUpper_scan hm hupper hmerges
  have hloop : ∃ st, lookupLower m fs parent up = .ok st ∧ st.metacopy = false ∧
      (up.upper.isSome = true → st.d.isDir = true) ∧ st.stack = scanLayers fs parent name := by
    have hnoRoot : ¬ (up.d.redirect.map Redirect.isAbs).getD false = true := by
      rw [show up.d.redirect = none from hscan.scanning.redirect]
      simp
    simp only [lookupLower, if_neg hnoRoot]
    cases hstop : up.d.stop with
    | true =>
      refine ⟨_, poeLoop_of_stop hstop, hscan.scanning.anyMetacopy, hscan.isDir, ?_⟩
      rw [hscan.stops hstop]
    | false =>
      obtain ⟨st, hrun, hst⟩ := poeLoop_scan hm hscan.origin horder hlower hscan.scanning hstop
      refine ⟨st, hrun, hst.metacopy, fun h => hst.isDir (hscan.isDir h), ?_⟩
      rw [hst.stack, hscan.goesOn hstop]
      rfl
  obtain ⟨st, hst, hmeta, hdir, hstack⟩ := hloop
  have hkeep : lookupStack m up st = .ok st.stack := by
    rw [lookupStack, hmeta, if_neg Bool.false_ne_true, if_neg]
    rintro ⟨hnot, hsome, -⟩
    rw [hdir hsome] at hnot
    cases hnot
  obtain ⟨index, hindex⟩ : ∃ index, lookupIndexOf m up st st.stack = .ok index := by
    unfold lookupIndexOf
    split
    · exact ⟨none, rfl⟩
    · split
      · exact hm.lookupIndex _ _
      · exact ⟨none, rfl⟩
  obtain ⟨redirect, hredirect⟩ : ∃ redirect, lookupRedirect fs up index = .ok redirect := by
    unfold lookupRedirect
    split
    · exact hm.indexRedirect _
    · exact ⟨_, rfl⟩
  refine ⟨⟨⟨up.upper <|> index, st.stack⟩, up.upper.isSome, up.d.isOpaque, redirect⟩, ?_, hstack⟩
  have hinode : ∀ r : Found, lookupInode m r = .ok r := by
    intro r
    rw [lookupInode, hm.getInode]
    split <;> rfl
  rw [ovlLookup, if_neg (Nat.not_lt.mpr hlen)]
  simp only [bind, Except.bind, hup, hst, hkeep, hindex, hredirect, hinode]

/-- Three lower layers below the upper one, each with a directory of every name; the one of
the second layer is opaque. -/
theorem lookup_lowerstack_scan_opaque : ∃ (m : Mount) (fs : Layers) (r : Found),
    ovlLookup m fs ⟨some 0, [⟨1, 0⟩, ⟨2, 0⟩, ⟨3, 0⟩]⟩ [97] = .ok r ∧
      r.entry.lowerstack = [⟨1, 1⟩, ⟨2, 1⟩] := by
  let m : Mount := ⟨true, true, false, false, false, false, false, 255,
    [⟨1, 0⟩, ⟨2, 0⟩, ⟨3, 0⟩], fun _ => .ok none, fun _ _ => none, fun _ _ => none,
    fun _ _ => .ok none, fun _ _ => none, fun _ => false⟩
  let fs : Layers := ⟨fun layer _ => ⟨.dir, decide (layer = 2), .ok none, .ok false, false, false⟩,
    fun _ _ _ => .ok (some 1)⟩
  have hplain : ∀ layer base, PlainEntry fs layer base [97] := fun layer base =>
    ⟨nofun, fun _ _ => rfl, fun _ _ => rfl, fun _ _ => rfl, fun _ _ => rfl⟩
  obtain ⟨r, hr, hstack⟩ := lookup_lowerstack_scan m fs ⟨some 0, [⟨1, 0⟩, ⟨2, 0⟩, ⟨3, 0⟩]⟩ [97]
    ⟨fun _ _ => rfl, rfl, fun _ => rfl, fun _ _ => ⟨none, rfl⟩, fun _ => ⟨none, rfl⟩,
      fun _ _ => rfl⟩ (by decide) ⟨by decide, by decide⟩ (fun u _ => hplain 0 u)
    (fun l _ => hplain l.idx l.ino) (fun _ _ _ _ => .inr rfl)
  exact ⟨m, fs, r, hr, hstack⟩

/-- The stack it stores is in order too. -/
theorem scanLower_sublist (found : Bool) (ls : List LowerPath) :
    ((scanLower fs name found ls).map LowerPath.idx).Sublist (ls.map LowerPath.idx) := by
  induction ls generalizing found with
  | nil => exact .slnil
  | cons lower rest ih =>
    rw [List.map_cons]
    cases hchild : childAt fs lower.idx lower.ino name with
    | none =>
      rw [scanLower_absent hchild]
      exact (ih found).cons _
    | some i =>
      by_cases hwhite : (fs.inode lower.idx i).kind = .whiteout
      · rw [scanLower_whiteout hchild hwhite]
        exact List.nil_sublist _
      by_cases hdir : (fs.inode lower.idx i).kind = .dir
      · rw [scanLower_dir hchild hdir, List.map_cons]
        split
        · exact (List.nil_sublist _).cons_cons _
        · exact (ih true).cons_cons _
      · rw [scanLower_file hchild hwhite hdir]
        split
        · exact List.nil_sublist _
        · exact (List.nil_sublist _).cons_cons _

theorem InOrder.scanLayers (h : InOrder m parent.lowerstack) :
    InOrder m (scanLayers fs parent name) := by
  have hsub : ((FzzOverlay.scanLayers fs parent name).map LowerPath.idx).Sublist
      (parent.lowerstack.map LowerPath.idx) := by
    unfold FzzOverlay.scanLayers
    split
    · exact scanLower_sublist _ _
    · split
      · exact List.nil_sublist _
      · exact scanLower_sublist _ _
  refine ⟨h.1.sublist hsub, fun l hl => ?_⟩
  obtain ⟨l', hl', heq⟩ := List.mem_map.mp (hsub.subset (List.mem_map_of_mem hl))
  rw [← heq]
  exact h.2 l' hl'

end Whole

end FzzOverlay
