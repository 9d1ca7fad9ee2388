import FzzOverlay.Dir.SetRedirect
import FzzOverlay.Namei.Frame
import FzzOverlay.Xattr.RedirectScan

/-!
# A directory that was moved

`ovl_rename` gives a directory that has lower directories a redirect, and then moves its
upper directory. The lower layers stay as they are. So the redirect stands, at the new
place, for the directories that it stood for before, and `ovl_lookup` finds them there.

## Main definitions

- `Moved` — what is there after the move

## Main results

- `standsFor_sameLower` — what a redirect stands for depends on the lower layers only
- `moved_directory_keeps_lower` — the directory is found with the lower directories it had
-/

namespace FzzOverlay

open CString SlashPath

-- ════════════════════════════════════════════════════════════════════════
-- The lower layers
-- ════════════════════════════════════════════════════════════════════════

section Same

variable {m m' : Mount} {fs fs' : Layers} {layer : ℕ} {ls found : List LowerPath}

theorem sameLower_parsedLayers {L L' : ℕ → Walk.RawLayer}
    (h : ∀ layer, layer ≠ 0 → L' layer = L layer) :
    SameLower (parsedLayers L) (parsedLayers L') := by
  constructor
  · intro layer hlayer
    simp only [parsedLayers, h layer hlayer]
  · intro layer hlayer
    funext i
    simp only [parsedLayers, h layer hlayer]

theorem dirEntry_sameLower (h : SameLower fs fs') (hlayer : layer ≠ 0) (base : ℕ) (last : Bool)
    (name : List UInt8) :
    dirEntry fs' layer base last name = dirEntry fs layer base last name := by
  unfold dirEntry
  rw [h.lookup layer hlayer, h.inode layer hlayer]

theorem dirPath_sameLower (h : SameLower fs fs') (hlayer : layer ≠ 0) (last : Bool)
    (path pre : List (List UInt8)) (stop : Bool) (base : ℕ) :
    dirPath fs' layer last path pre stop base = dirPath fs layer last path pre stop base := by
  induction path generalizing pre stop base with
  | nil => rfl
  | cons name post ih =>
    rw [dirPath, dirPath, dirEntry_sameLower h hlayer]
    simp only [ih]

theorem dirLayer_sameLower (h : SameLower fs fs') (hlayer : layer ≠ 0) (base : ℕ) (last : Bool)
    (name : Redirect) :
    dirLayer fs' layer base last name = dirLayer fs layer base last name := by
  cases name with
  | rel n => rw [dirLayer, dirLayer, dirEntry_sameLower h hlayer]
  | abs path => rw [dirLayer, dirLayer, dirPath_sameLower h hlayer]

/-- What is found from the roots, or in a directory, depends on the lower layers only. -/
theorem findRoot_sameLower (hroot : m'.root = m.root) (hsame : SameLower fs fs')
    (hls : ∀ l ∈ ls, l.idx ≠ 0) (name : Redirect) :
    findRoot m' fs' name ls = findRoot m fs name ls := by
  induction ls generalizing name with
  | nil => rfl
  | cons l ls ih =>
    have hl := hls l List.mem_cons_self
    have hrest := ih fun x hx => hls x (List.mem_cons_of_mem l hx)
    rw [findRoot, findRoot, lastLayer, lastLayer, hroot, dirLayer_sameLower hsame hl]
    simp only [hrest]

theorem findIn_sameLower (hroot : m'.root = m.root) (hpos : ∀ l ∈ m.root, l.idx ≠ 0)
    (hsame : SameLower fs fs') (hls : ∀ l ∈ ls, l.idx ≠ 0) (name : Redirect) :
    findIn m' fs' name ls = findIn m fs name ls := by
  induction ls generalizing name with
  | nil => rfl
  | cons l ls ih =>
    have hl := hls l List.mem_cons_self
    have hrest := ih fun x hx => hls x (List.mem_cons_of_mem l hx)
    have hbelow : ∀ x ∈ m.root.drop l.idx, x.idx ≠ 0 :=
      fun x hx => hpos x (List.mem_of_mem_drop hx)
    have hdrop := findRoot_sameLower hroot hsame hbelow
    rw [findIn, findIn, lastLayer, lastLayer, hroot, dirLayer_sameLower hsame hl]
    simp only [hrest, hdrop]

theorem standsFor_sameLower {q : OvlEntry} (hroot : m'.root = m.root)
    (hpos : ∀ l ∈ m.root, l.idx ≠ 0) (hsame : SameLower fs fs') {redirect : Redirect}
    (hq : redirect.isAbs = false → ∀ l ∈ q.lowerstack, l.idx ≠ 0) :
    standsFor m' fs' q redirect = standsFor m fs q redirect := by
  cases redirect with
  | rel name => exact findIn_sameLower hroot hpos hsame (hq rfl) _
  | abs path =>
    rw [standsFor, standsFor, hroot]
    exact findRoot_sameLower hroot hsame hpos _

theorem RootInOrder.idx_ne_zero (h : RootInOrder m) : ∀ l ∈ m.root, l.idx ≠ 0 := by
  intro l hl
  obtain ⟨k, hk, rfl⟩ := List.mem_iff_getElem.mp hl
  rw [h k _ _ (List.drop_eq_getElem_cons hk)]
  exact Nat.succ_ne_zero k

theorem LowerPath.idx_of_mem_hits {l o : LowerPath} {res : Option ℕ} (h : o ∈ l.hits res) :
    o.idx = l.idx := by
  cases res with
  | none => exact absurd h List.not_mem_nil
  | some i => rw [List.mem_singleton.mp h]

/-- What is found is in the lower layers. -/
theorem findRoot_idx_ne_zero (hls : ∀ l ∈ ls, l.idx ≠ 0) {name : Redirect}
    (h : findRoot m fs name ls = .ok found) : ∀ o ∈ found, o.idx ≠ 0 := by
  induction ls generalizing name found with
  | nil =>
    obtain rfl := Except.ok.inj h
    exact fun o ho => absurd ho List.not_mem_nil
  | cons l ls ih =>
    have hhits : ∀ {res : Option ℕ}, ∀ o ∈ l.hits res, o.idx ≠ 0 := by
      intro res o ho
      rw [LowerPath.idx_of_mem_hits ho]
      exact hls l List.mem_cons_self
    have hrest := fun x hx => hls x (List.mem_cons_of_mem l hx)
    cases hr : dirLayer fs l.idx l.ino (lastLayer m l) name with
    | error e =>
      rw [findRoot, hr] at h
      cases h
    | ok r =>
      rw [findRoot_cons hr] at h
      split at h
      · obtain rfl := Except.ok.inj h
        exact hhits
      · obtain ⟨found', hfound', rfl⟩ := map_eq_ok h
        exact fun o ho => (List.mem_append.mp ho).elim (hhits o) (ih hrest hfound' o)

theorem findIn_idx_ne_zero (hpos : ∀ l ∈ m.root, l.idx ≠ 0) (hls : ∀ l ∈ ls, l.idx ≠ 0)
    {name : Redirect} (h : findIn m fs name ls = .ok found) : ∀ o ∈ found, o.idx ≠ 0 := by
  induction ls generalizing name found with
  | nil =>
    obtain rfl := Except.ok.inj h
    exact fun o ho => absurd ho List.not_mem_nil
  | cons l ls ih =>
    have hhits : ∀ {res : Option ℕ}, ∀ o ∈ l.hits res, o.idx ≠ 0 := by
      intro res o ho
      rw [LowerPath.idx_of_mem_hits ho]
      exact hls l List.mem_cons_self
    have hrest := fun x hx => hls x (List.mem_cons_of_mem l hx)
    have hdrop : ∀ x ∈ m.root.drop l.idx, x.idx ≠ 0 := fun x hx => hpos x (List.mem_of_mem_drop hx)
    cases hr : dirLayer fs l.idx l.ino (lastLayer m l) name with
    | error e => rw [findIn_error hr] at h; cases h
    | ok r =>
      rw [findIn_cons hr] at h
      split at h
      · obtain rfl := Except.ok.inj h
        exact hhits
      split at h
      · obtain ⟨found', hfound', rfl⟩ := map_eq_ok h
        exact fun o ho =>
          (List.mem_append.mp ho).elim (hhits o) (findRoot_idx_ne_zero hdrop hfound' o)
      · obtain ⟨found', hfound', rfl⟩ := map_eq_ok h
        exact fun o ho => (List.mem_append.mp ho).elim (hhits o) (ih hrest hfound' o)

/-- The lower stack of a directory that was reached has no upper directory in it. -/
theorem Reached.lowerPaths {e : OvlEntry} {way : DentryPath} (hfollow : m.redirectFollow = true)
    (horder : RootInOrder m) (hindex : NoLowerDirIndex m fs) (h : Reached m fs e way) :
    LowerPaths m e := by
  refine ⟨?_, horder.idx_ne_zero⟩
  induction h with
  | root e h =>
    rw [h]
    exact horder.idx_ne_zero
  | @child p way name r hp hlookup hdir ih =>
    obtain hnil | hstands := ovlLookup_dir hfollow hindex hlookup hdir
    · rw [hnil]
      exact fun l hl => absurd hl List.not_mem_nil
    cases hred : r.redirect.getD (.rel name) with
    | rel n =>
      rw [hred] at hstands
      exact findIn_idx_ne_zero horder.idx_ne_zero ih hstands
    | abs path =>
      rw [hred] at hstands
      exact findRoot_idx_ne_zero horder.idx_ne_zero hstands

end Same

-- ════════════════════════════════════════════════════════════════════════
-- The directory at its new place
-- ════════════════════════════════════════════════════════════════════════

section Lookup

variable {m : Mount} {fs : Layers} {q : OvlEntry} {name : List UInt8} {redirect : Redirect}
  {u i : ℕ} {stack : List LowerPath}

/-- The lookup data for a directory of the upper layer that has a redirect. -/
def redirectedData (m : Mount) (q : OvlEntry) (name : List UInt8) (redirect : Redirect) :
    LookupData :=
  { initData m q name with isDir := true, redirect := some redirect, name := redirect }

theorem redirectedData_dirData (hfollow : m.redirectFollow = true) :
    DirData (redirectedData m q name redirect) false redirect false :=
  ⟨rfl, rfl, rfl, by simp [redirectedData, initData, hfollow], rfl, rfl⟩

/-- A directory with a redirect that `ovl_lookup_single` follows. -/
structure RedirectedDir (n : LayerInode) (redirect : Redirect) : Prop where
  kind : n.kind = .dir
  weird : n.weird = false
  trap : n.trap = false
  merged : n.isOpaque = false
  redirect : n.redirect = .ok (some redirect)

theorem lookupUpper_redirected (hfollow : m.redirectFollow = true) (hparent : q.upper = some u)
    (hchild : childAt fs 0 u name = some i) (hremote : m.remote i = false)
    (hn : RedirectedDir (fs.inode 0 i) redirect) :
    lookupUpper m fs q name = .ok ⟨redirectedData m q name redirect, some i, none, false⟩ := by
  have hlayer : ovlLookupLayer fs 0 u (initData m q name) =
      .ok (redirectedData m q name redirect, some i) := by
    rw [ovlLookupLayer_rel rfl]
    simp only [ovlLookupSingle, childAt_eq_some fs hchild]
    cases redirect with
    | abs path =>
      simp [hn.weird, hn.kind, hn.trap, hn.merged, ovlCheckRedirect, hn.redirect, redirectedData,
        initData, hfollow, Except.map]
    | rel n =>
      simp [hn.weird, hn.kind, hn.trap, hn.merged, ovlCheckRedirect, hn.redirect, redirectedData,
        initData, hfollow, Except.map]
  simp only [lookupUpper, hparent, hlayer, hremote, Bool.false_eq_true, if_false]
  rfl

/-- A directory that has a redirect is found under its name with the lower directories that
the redirect stands for, if the first of them is its origin. -/
theorem ovlLookup_redirected (hfollow : m.redirectFollow = true) (hlen : name.length ≤ m.namelen)
    (hparent : q.upper = some u) (hchild : childAt fs 0 u name = some i)
    (hremote : m.remote i = false) (hn : RedirectedDir (fs.inode 0 i) redirect)
    (hfix : ∀ l, m.fixOrigin i l = none)
    (hindex : ∀ o, ∃ x, m.lookupIndex (some i) o = .ok x)
    (hinode : ∀ ls, m.getInode (some i) ls = none)
    (horigin : m.nfsExport = true → m.index = true → ∀ l, stack.head? = some l →
      m.verifyOrigin i l = none)
    (hstands : standsFor m fs q redirect = .ok stack) :
    ovlLookup m fs q name = .ok ⟨⟨some i, stack⟩, true, false, some redirect⟩ := by
  have hup := lookupUpper_redirected hfollow hparent hchild hremote hn
  set up : UpperLookup := ⟨redirectedData m q name redirect, some i, none, false⟩
  have hdata : DirData up.d false redirect false := redirectedData_dirData hfollow
  have hfix' : ∀ v l, up.upper = some v → m.fixOrigin v l = none := by
    intro v l hv
    rw [← Option.some.inj hv]
    exact hfix l
  obtain ⟨st, hst⟩ := lookupLower_of_dir hfollow hdata hfix' hstands
  have hwalked := lookupLower_dir hfollow hdata hst
  have hstack : lookupStack m up st = .ok st.stack := by
    simp [lookupStack, hwalked.metacopy, hwalked.isDir, up]
  have hlower : st.stack = stack := by
    obtain ⟨-, hfirst⟩ | hfound := hwalked.lowerstack rfl hstack
    · obtain ⟨l, hl, hnfs, hidx, u, hu, hrefused⟩ := hfirst stack hstands
      obtain rfl : i = u := Option.some.inj hu
      rw [horigin hnfs hidx l hl] at hrefused
      cases hrefused
    · rw [hstands] at hfound
      exact (Except.ok.inj hfound).symm
  obtain ⟨index, hi⟩ : ∃ index, lookupIndexOf m up st st.stack = .ok index := by
    unfold lookupIndexOf
    split
    · exact ⟨none, rfl⟩
    split
    · exact hindex _
    · exact ⟨none, rfl⟩
  rw [← hlower]
  refine ovlLookup_eq_ok.mpr ⟨hlen, up, st, st.stack, index, up.d.redirect, hup, hst, hstack, hi,
    rfl, rfl, ?_⟩
  simp [lookupInode, Found.positive, hinode]

end Lookup

-- ════════════════════════════════════════════════════════════════════════
-- After the move
-- ════════════════════════════════════════════════════════════════════════

/-- The redirect of a directory after `ovl_set_redirect` has returned 0. -/
def PathDentry.redirectAfter (d : PathDentry) (value : Option (List UInt8)) :
    Option (List UInt8) :=
  value.or (d.redirect.map RedirectStr.bytes)

/-- What `ovl_rename` leaves of a directory `i` of the upper layer that it moved to `name`:
the name leads to it, its attribute has the redirect, and below nothing has changed. -/
structure Moved (m m' : Mount) (L L' : ℕ → Walk.RawLayer) (q : OvlEntry) (name : List UInt8)
    (i : ℕ) (redirect : Option (List UInt8)) : Prop where
  root : m'.root = m.root
  follow : m'.redirectFollow = m.redirectFollow
  lower : ∀ layer, layer ≠ 0 → L' layer = L layer
  there : ∃ u, q.upper = some u ∧ childAt (parsedLayers L') 0 u name = some i
  kind : ((L' 0).inode i).kind = .dir
  merged : ((L' 0).inode i).isOpaque = false
  redirect : ∃ v, ((L' 0).inode i).redirect = .ok v ∧ redirect = some v.bytes

/-- Nothing that `ovl_lookup` asks for fails when it finds the upper directory `i`. -/
structure Mount.Answers (m : Mount) (n : Walk.RawInode) (name : List UInt8) (i : ℕ) : Prop where
  short : name.length ≤ m.namelen
  remote : m.remote i = false
  weird : n.weird = false
  trap : n.trap = false
  fixOrigin : ∀ l, m.fixOrigin i l = none
  lookupIndex : ∀ o, ∃ x, m.lookupIndex (some i) o = .ok x
  getInode : ∀ ls, m.getInode (some i) ls = none

section After

variable {m m' : Mount} {L L' : ℕ → Walk.RawLayer} {p q : OvlEntry} {d : PathDentry}
  {up : List PathDentry} {r : Found} {ovlRedirectMax : UInt16} {samedir : Bool}
  {memBuf memDup noxattr : Bool} {junk : ℕ → UInt8} {setxattr : Option Errno} {nlink i : ℕ}
  {value : Option (List UInt8)} {name : List UInt8} {index : IndexDir}

/-- An attribute that has an accepted redirect is parsed. -/
theorem RedirectStr.parsedRedirect (rs : RedirectStr) {v : XattrValue} (h : v.bytes = rs.bytes) :
    FzzOverlay.parsedRedirect (.ok v) = .ok (some (parseRedirect rs.bytes)) := by
  obtain ⟨htext, hplain⟩ := text_parseRedirect rs.ok
  rw [← htext] at h
  refine parsedRedirect_text hplain ?_ ?_ ?_ h
  · rw [htext]
    exact rs.ne_nil
  · rw [htext]
    exact rs.nonzero
  · rw [htext]
    exact rs.ok

/-- The redirect after `ovl_set_redirect` is an accepted string. -/
theorem redirectAfter_eq {redirect : Redirect} (hred : d.parsed.2 = r.redirect)
    (hset : ovlSetRedirect ovlRedirectMax memBuf memDup junk noxattr setxattr d up samedir true
      nlink = .ret (none, value))
    (h : (value.map parseRedirect).or r.redirect = some redirect) :
    ∃ rs : RedirectStr, d.redirectAfter value = some rs.bytes ∧
      redirect = parseRedirect rs.bytes := by
  cases value with
  | some s =>
    obtain ⟨rs, rfl⟩ := ovlSetRedirect_redirectStr hset
    exact ⟨rs, rfl, (Option.some.inj h).symm⟩
  | none =>
    rw [← hred, Option.map_none, Option.none_or] at h
    obtain ⟨rs, hrs, rfl⟩ := Option.map_eq_some_iff.mp h
    exact ⟨rs, by rw [PathDentry.redirectAfter, hrs]; rfl, rfl⟩

theorem Moved.redirectedDir {rs : RedirectStr} (h : Moved m m' L L' q name i (some rs.bytes))
    (ha : m'.Answers ((L' 0).inode i) name i) :
    RedirectedDir ((parsedLayers L').inode 0 i) (parseRedirect rs.bytes) := by
  obtain ⟨v, hv, hbytes⟩ := h.redirect
  refine ⟨h.kind, ha.weird, ha.trap, h.merged, ?_⟩
  change parsedRedirect ((L' 0).inode i).redirect = _
  rw [hv]
  exact rs.parsedRedirect (Option.some.inj hbytes).symm

/-- A directory that is moved is found at its new place with the lower directories that it
had, by the redirect that `ovl_set_redirect` has given it, or has found on it. So it can be
moved again, as often as one likes. -/
theorem moved_directory_keeps_lower (hfollow : m.redirectFollow = true) (horder : RootInOrder m)
    (hindex : m.lookupIndex = ovlLookupIndex (parsedLayers L) index true)
    (hp : Reached m (parsedLayers L) p (up.map PathDentry.parsed))
    (hlookup : ovlLookup m (parsedLayers L) p d.name = .ok r)
    (hdir : foundKind (parsedLayers L) r = some .dir) (hred : d.parsed.2 = r.redirect)
    (hmerge : r.entry.lowerstack ≠ [])
    (hset : ovlSetRedirect ovlRedirectMax memBuf memDup junk noxattr setxattr d up samedir true
      nlink = .ret (none, value))
    (hq : samedir = true → q.lowerstack = p.lowerstack)
    (hmoved : Moved m m' L L' q name i (d.redirectAfter value))
    (hanswers : m'.Answers ((L' 0).inode i) name i)
    (horigin : m'.nfsExport = true → m'.index = true → ∀ l, r.entry.lowerstack.head? = some l →
      m'.verifyOrigin i l = none) :
    ∃ rs : RedirectStr, d.redirectAfter value = some rs.bytes ∧
      ovlLookup m' (parsedLayers L') q name =
        .ok ⟨⟨some i, r.entry.lowerstack⟩, true, false, some (parseRedirect rs.bytes)⟩ ∧
      ∀ way, Reached m' (parsedLayers L') q way → Reached m' (parsedLayers L')
        ⟨some i, r.entry.lowerstack⟩ ((name, some (parseRedirect rs.bytes)) :: way) := by
  have hno := noLowerDirIndex hindex
  obtain ⟨redirect, hsome, hrel, hstands⟩ := ovlSetRedirect_stands hfollow horder
    (validRedirects_parsedLayers L) hno hp hlookup hdir hred hset hq
  obtain ⟨rs, hafter, rfl⟩ := redirectAfter_eq hred hset hsome
  rw [hafter] at hmoved
  obtain ⟨u, hu, hchild⟩ := hmoved.there
  have hsame := sameLower_parsedLayers hmoved.lower
  have hnew : standsFor m' (parsedLayers L') q (parseRedirect rs.bytes) =
      .ok r.entry.lowerstack := by
    rw [standsFor_sameLower hmoved.root horder.idx_ne_zero hsame fun h => ?_]
    · exact hstands.resolve_left hmerge
    · rw [hq (hrel h)]
      exact (hp.lowerPaths hfollow horder hno).parent
  have hfound := ovlLookup_redirected (hmoved.follow.trans hfollow) hanswers.short hu hchild
    hanswers.remote (hmoved.redirectedDir hanswers) hanswers.fixOrigin hanswers.lookupIndex
    hanswers.getInode horigin hnew
  exact ⟨rs, hafter, hfound, fun way hway => .child hway hfound (congrArg some hmoved.kind)⟩

/-- A mount with `redirect_dir=on` and one lower layer. -/
def redirectMount : Mount where
  redirectDir := true
  redirectFollow := true
  metacopy := false
  index := false
  nfsExport := false
  noxattr := false
  indexdir := false
  namelen := 255
  root := [⟨1, 1⟩]
  checkOrigin _ := .ok none
  fixOrigin _ _ := none
  verifyOrigin _ _ := none
  lookupIndex _ _ := .ok none
  getInode _ _ := none
  remote _ := false

def plainRaw (kind : RealKind) (redirect : Except Errno XattrValue) : Walk.RawInode where
  kind := kind
  isOpaque := false
  redirect := redirect
  metacopy := .ok false
  weird := false
  trap := false
  mem := .ample

/-- Inode 1 is the root of both layers, and both have the directory `a`, inode 2. The upper
layer has the directory `b` besides, inode 3. -/
def beforeMove (layer : ℕ) : Walk.RawLayer where
  inode _ := plainRaw .dir (.error ENODATA)
  lookup base name := .ok (
    if base = 1 ∧ name = [97] then some 2
    else if base = 1 ∧ layer = 0 ∧ name = [98] then some 3
    else none)

/-- `a` is moved to `b/c`, and there is a whiteout in its place. -/
def afterMove (layer : ℕ) : Walk.RawLayer :=
  if layer = 0 then
    { inode := fun i =>
        if i = 2 then plainRaw .dir (.ok ⟨[slash, 97], by decide⟩)
        else if i = 4 then plainRaw .whiteout (.error ENODATA)
        else plainRaw .dir (.error ENODATA)
      lookup := fun base name => .ok (
        if base = 1 ∧ name = [97] then some 4
        else if base = 1 ∧ name = [98] then some 3
        else if base = 3 ∧ name = [99] then some 2
        else none) }
  else beforeMove layer

/-- The dentry of `a`. -/
def movedDentry : PathDentry := ⟨[97], ⟨by decide, by decide⟩, by decide, none⟩

/-- `b/c` is found with the lower directory `a`. -/
theorem moved_directory_keeps_lower_below :
    ∃ rs : RedirectStr, movedDentry.redirectAfter (some [slash, 97]) = some rs.bytes ∧
      ovlLookup redirectMount (parsedLayers afterMove) ⟨some 3, []⟩ [99] =
        .ok ⟨⟨some 2, [⟨1, 2⟩]⟩, true, false, some (parseRedirect rs.bytes)⟩ ∧
      ∀ way, Reached redirectMount (parsedLayers afterMove) ⟨some 3, []⟩ way →
        Reached redirectMount (parsedLayers afterMove) ⟨some 2, [⟨1, 2⟩]⟩
          (([99], some (parseRedirect rs.bytes)) :: way) := by
  have hlookup : ovlLookup redirectMount (parsedLayers beforeMove) ⟨some 1, [⟨1, 1⟩]⟩ [97] =
      .ok ⟨⟨some 2, [⟨1, 2⟩]⟩, true, false, none⟩ := by rfl
  have horder : RootInOrder redirectMount := by
    intro k l ls h
    cases k with
    | zero => cases h; rfl
    | succ k => cases (List.drop_nil.symm.trans h)
  have hset : ovlSetRedirect 16 true true (fun _ => 7) false none movedDentry [] false true 0 =
      .ret (none, some [slash, 97]) := by rfl
  have hmoved : Moved redirectMount redirectMount beforeMove afterMove ⟨some 3, []⟩ [99] 2
      (movedDentry.redirectAfter (some [slash, 97])) :=
    ⟨rfl, rfl, fun layer h => if_neg h, ⟨3, rfl, rfl⟩, rfl, rfl, ⟨_, rfl, rfl⟩⟩
  have hanswers : redirectMount.Answers ((afterMove 0).inode 2) [99] 2 :=
    ⟨by decide, rfl, rfl, rfl, fun _ => rfl, fun _ => ⟨none, rfl⟩, fun _ => rfl⟩
  have hindex : redirectMount.lookupIndex = ovlLookupIndex (parsedLayers beforeMove)
      ⟨fun _ => none, fun _ => .ok none, fun _ _ => true, fun _ _ => none⟩ true := rfl
  exact moved_directory_keeps_lower rfl horder hindex (.root _ rfl) hlookup rfl
    rfl (by decide) hset (fun h => by cases h) hmoved hanswers fun h => by cases h

end After

end FzzOverlay
