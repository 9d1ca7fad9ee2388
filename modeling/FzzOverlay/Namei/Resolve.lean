import FzzOverlay.Namei.Lookup

/-!
# The lower directories that a path stands for

A directory is looked up by its name in the lower directories of its parent, or by an
absolute redirect from the roots of the layers. `findIn` and `findRoot` say which lower
directories are found either way, without the checks of origins, and `findRoot_append`
that looking a name up in the directories found for a path is looking the longer path up
from the roots.
-/

namespace FzzOverlay

-- ════════════════════════════════════════════════════════════════════════
-- One component
-- ════════════════════════════════════════════════════════════════════════

/-- What a directory of a layer has under a name, for the lookup of a directory. -/
inductive DirEntry where
  | absent
  | whiteout
  | nondir
  | plain (i : ℕ)
  | opaqueDir (i : ℕ)
  | redirected (i : ℕ) (r : Redirect)

/-- The entry of a directory; with `last` nothing is read from the inode. -/
def dirEntry (fs : Layers) (layer base : ℕ) (last : Bool) (name : List UInt8) :
    Except Errno DirEntry :=
  match fs.lookup layer base name with
  | .error e => if e.ret = ENOENT.ret ∨ e.ret = ENAMETOOLONG.ret then .ok .absent else .error e
  | .ok none => .ok .absent
  | .ok (some i) =>
    let n := fs.inode layer i
    if n.weird then .error EREMOTE
    else if n.kind = .whiteout then .ok .whiteout
    else if n.kind ≠ .dir then .ok .nondir
    else if n.trap then .error ELOOP
    else if last then .ok (.plain i)
    else if n.isOpaque then .ok (.opaqueDir i)
    else
      match n.redirect with
      | .error e => .error e
      | .ok none => .ok (.plain i)
      | .ok (some r) => .ok (.redirected i r)

/-- What an entry makes of the lookup data. -/
def DirEntry.apply (d : LookupData) (pre : Option (List (List UInt8)))
    (post : List (List UInt8)) : DirEntry → LookupData × Option ℕ
  | .absent => (d, none)
  | .whiteout => ({ d with stop := true, isOpaque := true }, none)
  | .nondir => ({ d with stop := true }, none)
  | .plain i => (d, some i)
  | .opaqueDir i => ({ d with stop := true, isOpaque := d.isOpaque || post.isEmpty }, some i)
  | .redirected i (.abs r) =>
    ({ d with stop := false, redirect := some (.abs (r ++ post)), name := .abs (r ++ post) },
      some i)
  | .redirected i (.rel r) =>
    let name := match pre with
      | none => Redirect.rel r
      | some pre => .abs (pre ++ r :: post)
    ({ d with redirect := some name, name := name }, some i)

section Entry

variable {fs : Layers} {layer base : ℕ} {d : LookupData} {name : List UInt8}
  {pre : Option (List (List UInt8))} {post : List (List UInt8)}

/-- `ovl_lookup_single` when a directory is looked for. -/
theorem ovlLookupSingle_dir (hdir : d.isDir = true) (hmeta : d.metacopy = false) :
    ovlLookupSingle fs layer base d name pre post =
      (dirEntry fs layer base d.last name).map (DirEntry.apply d pre post) := by
  obtain ⟨dname, isDir, isOpaque, stop, last, redirect, metacopy⟩ := d
  obtain rfl : isDir = true := hdir
  obtain rfl : metacopy = false := hmeta
  unfold ovlLookupSingle dirEntry
  cases fs.lookup layer base name with
  | error e =>
    simp only
    split
    · rfl
    · rfl
  | ok res =>
    cases res with
    | none => rfl
    | some i =>
      simp only [Bool.false_eq_true, false_and, and_false, if_false, true_or, if_true,
        Bool.true_or]
      split
      · rfl
      split
      · rfl
      split
      · rfl
      split
      · rfl
      split
      · rfl
      split
      · rfl
      unfold ovlCheckRedirect
      cases (fs.inode layer i).redirect with
      | error e => rfl
      | ok r =>
        cases r with
        | none => rfl
        | some r => cases r <;> rfl

theorem dirEntry_kind {last : Bool} {v : DirEntry} {i : ℕ}
    (h : dirEntry fs layer base last name = .ok v) (hi : (v.apply d pre post).2 = some i) :
    (fs.inode layer i).kind = .dir := by
  unfold dirEntry at h
  split at h
  · split at h
    · obtain rfl := Except.ok.inj h
      cases hi
    · cases h
  · obtain rfl := Except.ok.inj h
    cases hi
  · next j hj =>
    simp only at h
    split at h
    · cases h
    split at h
    · obtain rfl := Except.ok.inj h
      cases hi
    split at h
    · obtain rfl := Except.ok.inj h
      cases hi
    next hk =>
    split at h
    · cases h
    have hdir : (fs.inode layer j).kind = .dir := not_not.mp hk
    split at h
    · obtain rfl := Except.ok.inj h
      exact Option.some.inj hi ▸ hdir
    split at h
    · obtain rfl := Except.ok.inj h
      exact Option.some.inj hi ▸ hdir
    split at h
    · cases h
    · obtain rfl := Except.ok.inj h
      exact Option.some.inj hi ▸ hdir
    · next r hr =>
      obtain rfl := Except.ok.inj h
      cases r with
      | abs r => exact Option.some.inj hi ▸ hdir
      | rel r => exact Option.some.inj hi ▸ hdir

end Entry

-- ════════════════════════════════════════════════════════════════════════
-- One layer
-- ════════════════════════════════════════════════════════════════════════

/-- The inode that an entry leads to, the path that the layers below have for it, and
whether they are searched. -/
def DirEntry.step (pre : List (List UInt8)) (name : List UInt8) (stop : Bool) :
    DirEntry → Option ℕ × List (List UInt8) × Bool
  | .absent => (none, pre ++ [name], stop)
  | .whiteout => (none, pre ++ [name], true)
  | .nondir => (none, pre ++ [name], true)
  | .plain i => (some i, pre ++ [name], stop)
  | .opaqueDir i => (some i, pre ++ [name], true)
  | .redirected i (.abs r) => (some i, r, false)
  | .redirected i (.rel r) => (some i, pre ++ [r], stop)

/-- The lookup of a directory by a path in one layer. -/
def dirPath (fs : Layers) (layer : ℕ) (last : Bool) : List (List UInt8) →
    List (List UInt8) → Bool → ℕ → Except Errno (Option ℕ × List (List UInt8) × Bool)
  | [], pre, stop, _ => .ok (none, pre, stop)
  | name :: post, pre, stop, base =>
    match dirEntry fs layer base last name with
    | .error e => .error e
    | .ok v =>
      match v.step pre name stop with
      | (none, pre', stop') => .ok (none, pre' ++ post, stop')
      | (some i, pre', stop') =>
        if post = [] then .ok (some i, pre', stop')
        else dirPath fs layer last post pre' stop' i

/-- The lookup of a name where the lookup of a path ended. -/
def dirPathFrom (fs : Layers) (layer : ℕ) (last : Bool) (name : List UInt8)
    (q : List (List UInt8)) (stop : Bool) :
    Option ℕ → Except Errno (Option ℕ × List (List UInt8) × Bool)
  | none => .ok (none, q ++ [name], stop)
  | some i => dirPath fs layer last [name] q stop i

/-- The same for a name that is not part of a path. -/
def DirEntry.outcome (name : List UInt8) : DirEntry → Option ℕ × Redirect × Bool
  | .absent => (none, .rel name, false)
  | .whiteout => (none, .rel name, true)
  | .nondir => (none, .rel name, true)
  | .plain i => (some i, .rel name, false)
  | .opaqueDir i => (some i, .rel name, true)
  | .redirected i r => (some i, r, false)

/-- The lookup of a directory in one layer, by a name or from the root by a path. -/
def dirLayer (fs : Layers) (layer base : ℕ) (last : Bool) :
    Redirect → Except Errno (Option ℕ × Redirect × Bool)
  | .rel name => (dirEntry fs layer base last name).map (DirEntry.outcome name)
  | .abs path =>
    (dirPath fs layer last path [] false base).map fun r => (r.1, .abs r.2.1, r.2.2)

/-- The lookup data is about a directory. -/
structure DirData (d : LookupData) (last : Bool) (name : Redirect) (stop : Bool) : Prop where
  redirect : (d.redirect.map Redirect.isAbs).getD false = name.isAbs
  isDir : d.isDir = true
  metacopy : d.metacopy = false
  last : d.last = last
  name : d.name = name
  stop : d.stop = stop

/-- A lookup in a layer does what the lookup of a directory there does. -/
def LayerAgrees (last : Bool) (x : Except Errno (LookupData × Option ℕ))
    (y : Except Errno (Option ℕ × Redirect × Bool)) : Prop :=
  match y with
  | .error e => x = .error e
  | .ok (res, name, stop) => ∃ d, x = .ok (d, res) ∧ DirData d last name stop

section Layer

variable {fs : Layers} {layer base : ℕ} {d : LookupData} {last stop : Bool}
  {name : List UInt8} {pre post path : List (List UInt8)}

theorem DirEntry.apply_step (v : DirEntry) (h : DirData d last (.abs (pre ++ name :: post)) stop) :
    (v.apply d (some pre) post).2 = (v.step pre name stop).1 ∧
      DirData (v.apply d (some pre) post).1 last (.abs ((v.step pre name stop).2.1 ++ post))
        (v.step pre name stop).2.2 := by
  have hassoc : ∀ n : List UInt8, pre ++ n :: post = (pre ++ [n]) ++ post := by simp
  rw [hassoc] at h
  cases v with
  | absent => exact ⟨rfl, h⟩
  | whiteout => exact ⟨rfl, h.redirect, h.isDir, h.metacopy, h.last, h.name, rfl⟩
  | nondir => exact ⟨rfl, h.redirect, h.isDir, h.metacopy, h.last, h.name, rfl⟩
  | plain i => exact ⟨rfl, h⟩
  | opaqueDir i => exact ⟨rfl, h.redirect, h.isDir, h.metacopy, h.last, h.name, rfl⟩
  | redirected i r =>
    cases r with
    | abs r => exact ⟨rfl, rfl, h.isDir, h.metacopy, h.last, rfl, rfl⟩
    | rel r =>
      refine ⟨rfl, rfl, h.isDir, h.metacopy, h.last, ?_, h.stop⟩
      exact congrArg Redirect.abs (hassoc r)

theorem DirData.before (h : DirData d last (.abs (pre ++ path)) stop) :
    d.before path.length = pre := by
  rw [LookupData.before, h.name]
  simp

/-- Walking down an absolute path when a directory is looked for. -/
theorem lookupPath_dir (pre : List (List UInt8))
    (h : DirData d last (.abs (pre ++ path)) stop) :
    LayerAgrees last (lookupPath fs layer path base d)
      ((dirPath fs layer last path pre stop base).map fun r => (r.1, .abs r.2.1, r.2.2)) := by
  induction path generalizing base d pre stop with
  | nil =>
    rw [List.append_nil] at h
    exact ⟨d, rfl, h⟩
  | cons name post ih =>
    have hpre : d.before (post.length + 1) = pre := h.before
    rw [lookupPath, hpre, ovlLookupSingle_dir h.isDir h.metacopy, h.last, dirPath]
    cases hv : dirEntry fs layer base last name with
    | error e => rfl
    | ok v =>
      obtain ⟨hres, hdata⟩ := v.apply_step h
      have hkind : ∀ i, (v.apply d (some pre) post).2 = some i →
          (fs.inode layer i).kind = .dir := fun i hi => dirEntry_kind hv hi
      simp only [Except.map]
      revert hres hdata hkind
      obtain ⟨d', res⟩ := v.apply d (some pre) post
      obtain ⟨res', pre', stop'⟩ := v.step pre name stop
      intro hres hdata hkind
      obtain rfl : res = res' := hres
      cases res with
      | none => exact ⟨d', rfl, hdata⟩
      | some i =>
        by_cases hpost : post = []
        · subst hpost
          simp only [true_or, if_true]
          rw [List.append_nil] at hdata
          exact ⟨d', rfl, hdata⟩
        · have hdir : ¬ (post = [] ∨ (fs.inode layer i).kind ≠ .dir) := by
            rw [hkind i rfl]
            simp [hpost]
          simp only [if_neg hdir, if_neg hpost]
          exact ih _ hdata

/-- `ovl_lookup_layer` when a directory is looked for. -/
theorem ovlLookupLayer_dir (fs : Layers) (layer base : ℕ) {name : Redirect}
    (h : DirData d last name false) :
    LayerAgrees last (ovlLookupLayer fs layer base d) (dirLayer fs layer base last name) := by
  unfold ovlLookupLayer
  rw [h.name]
  cases name with
  | abs path => exact lookupPath_dir [] h
  | rel name =>
    simp only [dirLayer, ovlLookupSingle_dir h.isDir h.metacopy, h.last]
    cases dirEntry fs layer base last name with
    | error e => rfl
    | ok v =>
      cases v with
      | absent => exact ⟨d, rfl, h⟩
      | whiteout => exact ⟨_, rfl, h.redirect, h.isDir, h.metacopy, h.last, h.name, rfl⟩
      | nondir => exact ⟨_, rfl, h.redirect, h.isDir, h.metacopy, h.last, h.name, rfl⟩
      | plain i => exact ⟨d, rfl, h⟩
      | opaqueDir i => exact ⟨_, rfl, h.redirect, h.isDir, h.metacopy, h.last, h.name, rfl⟩
      | redirected i r =>
        cases r with
        | abs r =>
          refine ⟨_, rfl, rfl, h.isDir, h.metacopy, h.last, ?_, rfl⟩
          exact congrArg Redirect.abs (List.append_nil r)
        | rel r => exact ⟨_, rfl, rfl, h.isDir, h.metacopy, h.last, rfl, h.stop⟩

/-- A longer path goes on where the shorter one ends. -/
theorem dirPath_append {q : List (List UInt8)} {res : Option ℕ} {stop' : Bool}
    (hpath : path ≠ []) (h : dirPath fs layer last path pre stop base = .ok (res, q, stop')) :
    dirPath fs layer last (path ++ [name]) pre stop base =
      dirPathFrom fs layer last name q stop' res := by
  induction path generalizing base pre stop with
  | nil => exact absurd rfl hpath
  | cons n post ih =>
    rw [dirPath] at h
    rw [List.cons_append, dirPath]
    cases hv : dirEntry fs layer base last n with
    | error e =>
      rw [hv] at h
      cases h
    | ok v =>
      rw [hv] at h
      simp only at h ⊢
      revert h
      obtain ⟨res', pre', s'⟩ := v.step pre n stop
      intro h
      cases res' with
      | none =>
        cases h
        rw [dirPathFrom, List.append_assoc]
      | some i =>
        have hne : post ++ [name] ≠ [] := by simp
        simp only [if_neg hne]
        by_cases hpost : post = []
        · subst hpost
          cases h
          rfl
        · simp only [if_neg hpost] at h
          exact ih hpost h

theorem dirPath_single : dirPath fs layer last [name] pre stop base =
    (dirEntry fs layer base last name).map fun v => v.step pre name stop := by
  rw [dirPath]
  cases dirEntry fs layer base last name with
  | error e => rfl
  | ok v =>
    simp only [Except.map]
    obtain ⟨res, pre', s'⟩ := v.step pre name stop
    cases res with
    | none => simp
    | some i => rfl

end Layer

-- ════════════════════════════════════════════════════════════════════════
-- All layers
-- ════════════════════════════════════════════════════════════════════════

/-- What was found in a layer, as a part of a lower stack. -/
def LowerPath.hits (l : LowerPath) (res : Option ℕ) : List LowerPath :=
  (res.map fun i => ⟨l.idx, i⟩).toList

section Find

variable (m : Mount) (fs : Layers)

/-- `d.last` for a lower layer when redirects are followed. -/
def lastLayer (l : LowerPath) : Bool := decide (l.idx = m.root.length)

/-- The directories found from the roots of the layers. -/
def findRoot : Redirect → List LowerPath → Except Errno (List LowerPath)
  | _, [] => .ok []
  | name, l :: ls =>
    match dirLayer fs l.idx l.ino (lastLayer m l) name with
    | .error e => .error e
    | .ok (res, name', stop) =>
      if stop then .ok (l.hits res) else (findRoot name' ls).map (l.hits res ++ ·)

/-- The directories found in the lower directories of a parent. -/
def findIn : Redirect → List LowerPath → Except Errno (List LowerPath)
  | _, [] => .ok []
  | name, l :: ls =>
    match dirLayer fs l.idx l.ino (lastLayer m l) name with
    | .error e => .error e
    | .ok (res, name', stop) =>
      if stop then .ok (l.hits res)
      else if name'.isAbs then (findRoot m fs name' (m.root.drop l.idx)).map (l.hits res ++ ·)
      else (findIn name' ls).map (l.hits res ++ ·)

/-- The lower directories of a path: those of the root are the roots of the layers. -/
def pathStack (path : List (List UInt8)) (ls : List LowerPath) :
    Except Errno (List LowerPath) :=
  if path = [] then .ok ls else findRoot m fs (.abs path) ls

/-- The lower stack of the root has the layers in their order. -/
def RootInOrder : Prop := ∀ k l ls, m.root.drop k = l :: ls → l.idx = k + 1

/-- `ovl_get_redirect_xattr` refuses a path without components. -/
def ValidRedirects : Prop :=
  ∀ layer i r, (fs.inode layer i).redirect = .ok (some (.abs r)) → r ≠ []

end Find

theorem map_eq_ok {ε α β : Type} {x : Except ε α} {f : α → β} {b : β}
    (h : x.map f = .ok b) : ∃ a, x = .ok a ∧ f a = b := by
  cases x with
  | error e => cases h
  | ok a => exact ⟨a, rfl, Except.ok.inj h⟩

section Compose

variable {m : Mount} {fs : Layers} {l : LowerPath} {ls rest found : List LowerPath}
  {path : List (List UInt8)}

theorem dirEntry_redirect {layer base i : ℕ} {last : Bool} {name : List UInt8}
    {r : List (List UInt8)} (hvalid : ValidRedirects fs)
    (h : dirEntry fs layer base last name = .ok (.redirected i (.abs r))) : r ≠ [] := by
  unfold dirEntry at h
  split at h
  · split at h <;> cases h
  · cases h
  · next j hj =>
    simp only at h
    split at h
    · cases h
    split at h
    · cases h
    split at h
    · cases h
    split at h
    · cases h
    split at h
    · cases h
    split at h
    · cases h
    split at h
    · cases h
    · cases h
    · next r' hr =>
      cases h
      exact hvalid layer i r hr

theorem dirPath_ne_nil {layer base : ℕ} {last stop stop' : Bool} {pre q : List (List UInt8)}
    {res : Option ℕ} (hvalid : ValidRedirects fs) (hne : pre ≠ [] ∨ path ≠ [])
    (h : dirPath fs layer last path pre stop base = .ok (res, q, stop')) : q ≠ [] := by
  induction path generalizing base pre stop with
  | nil =>
    cases h
    exact hne.resolve_right (not_not.mpr rfl)
  | cons name post ih =>
    rw [dirPath] at h
    cases hv : dirEntry fs layer base last name with
    | error e =>
      rw [hv] at h
      cases h
    | ok v =>
      have hstep : (v.step pre name stop).2.1 ≠ [] := by
        cases v with
        | redirected i r =>
          cases r with
          | abs r => exact dirEntry_redirect hvalid hv
          | rel r => simp [DirEntry.step]
        | _ => simp [DirEntry.step]
      rw [hv] at h
      simp only at h
      revert hstep h
      obtain ⟨res', pre', s'⟩ := v.step pre name stop
      intro h hstep
      cases res' with
      | none =>
        cases h
        simp [show pre' ≠ [] from hstep]
      | some i =>
        simp only at h
        split at h
        · cases h
          exact hstep
        · exact ih (.inl hstep) h

/-- What a layer has for a path, and how a longer path goes on from there. -/
theorem pathStack_cons (hvalid : ValidRedirects fs)
    (h : pathStack m fs path (l :: ls) = .ok rest) :
    ∃ res q stop rest', rest = l.hits res ++ rest' ∧
      (if stop then rest' = [] else pathStack m fs q ls = .ok rest') ∧
      ∀ name, dirPath fs l.idx (lastLayer m l) (path ++ [name]) [] false l.ino =
        dirPathFrom fs l.idx (lastLayer m l) name q stop res := by
  unfold pathStack at h
  split at h
  · next hpath =>
    subst hpath
    refine ⟨some l.ino, [], false, ls, (Except.ok.inj h).symm, ?_, fun name => rfl⟩
    simp [pathStack]
  · next hpath =>
    rw [findRoot, dirLayer] at h
    cases hp : dirPath fs l.idx (lastLayer m l) path [] false l.ino with
    | error e =>
      rw [hp] at h
      cases h
    | ok r =>
      obtain ⟨res, q, stop⟩ := r
      have hq := dirPath_ne_nil hvalid (.inr hpath) hp
      rw [hp] at h
      simp only [Except.map] at h
      split at h
      · next hstop =>
        refine ⟨res, q, stop, [], ?_, ?_, fun name => dirPath_append hpath hp⟩
        · rw [List.append_nil]
          exact (Except.ok.inj h).symm
        · rw [if_pos hstop]
      · next hstop =>
        obtain ⟨rest', hrest, rfl⟩ := map_eq_ok h
        refine ⟨res, q, stop, rest', rfl, ?_, fun name => dirPath_append hpath hp⟩
        rw [if_neg hstop, pathStack, if_neg hq]
        exact hrest

theorem dirLayer_abs {layer base : ℕ} {last : Bool} {r : Option ℕ × List (List UInt8) × Bool}
    (h : dirPath fs layer last path [] false base = .ok r) :
    dirLayer fs layer base last (.abs path) = .ok (r.1, .abs r.2.1, r.2.2) := by
  rw [dirLayer, h]
  rfl

section Cons

variable {name : Redirect} {r : Option ℕ × Redirect × Bool}

theorem findRoot_cons (h : dirLayer fs l.idx l.ino (lastLayer m l) name = .ok r) :
    findRoot m fs name (l :: ls) =
      if r.2.2 then .ok (l.hits r.1) else (findRoot m fs r.2.1 ls).map (l.hits r.1 ++ ·) := by
  rw [findRoot, h]

theorem findIn_cons (h : dirLayer fs l.idx l.ino (lastLayer m l) name = .ok r) :
    findIn m fs name (l :: ls) =
      if r.2.2 then .ok (l.hits r.1)
      else if r.2.1.isAbs then
        (findRoot m fs r.2.1 (m.root.drop l.idx)).map (l.hits r.1 ++ ·)
      else (findIn m fs r.2.1 ls).map (l.hits r.1 ++ ·) := by
  rw [findIn, h]

theorem findIn_error {e : Errno} (h : dirLayer fs l.idx l.ino (lastLayer m l) name = .error e) :
    findIn m fs name (l :: ls) = .error e := by
  rw [findIn, h]

end Cons

/-- Looking a name up in the directories of a path is looking the longer path up. -/
theorem findRoot_append {k : ℕ} {name : List UInt8} (horder : RootInOrder m)
    (hvalid : ValidRedirects fs) (hpath : pathStack m fs path (m.root.drop k) = .ok rest)
    (hname : findIn m fs (.rel name) rest = .ok found) :
    findRoot m fs (.abs (path ++ [name])) (m.root.drop k) = .ok found := by
  generalize hls : m.root.drop k = ls at hpath ⊢
  induction ls generalizing k path name rest found with
  | nil =>
    have hrest : rest = [] := by
      unfold pathStack at hpath
      split at hpath
      · exact (Except.ok.inj hpath).symm
      · exact (Except.ok.inj hpath).symm
    subst hrest
    exact hname
  | cons l ls ih =>
    have hidx := horder k l ls hls
    have hdrop : m.root.drop l.idx = ls := by
      rw [hidx, ← List.drop_drop, hls]
      rfl
    obtain ⟨res, q, stop, rest', rfl, hrest', happ⟩ := pathStack_cons hvalid hpath
    -- the layers below, when the name is still looked up in the directories of the path
    have hbelow : ∀ n here found, (findIn m fs (.rel n) rest').map (here ++ ·) = .ok found →
        (if stop then .ok here else
          (findRoot m fs (.abs (q ++ [n])) ls).map (here ++ ·)) = .ok found := by
      intro n here found hn
      obtain ⟨found', hfound', rfl⟩ := map_eq_ok hn
      cases stop with
      | true =>
        obtain rfl : rest' = [] := hrest'
        obtain rfl := Except.ok.inj hfound'
        rw [List.append_nil]
        rfl
      | false =>
        rw [if_neg Bool.false_ne_true, ih (k := l.idx) hfound' hdrop hrest']
        rfl
    cases res with
    | none =>
      rw [findRoot_cons (dirLayer_abs (happ name))]
      refine hbelow name [] found ?_
      rw [show findIn m fs (.rel name) rest' = .ok found from hname]
      rfl
    | some i =>
      have happ' := happ name
      rw [dirPathFrom, dirPath_single] at happ'
      have hcons : findIn m fs (.rel name) (⟨l.idx, i⟩ :: rest') = .ok found := hname
      cases hv : dirEntry fs l.idx i (lastLayer m l) name with
      | error e =>
        have hlayer : dirLayer fs l.idx i (lastLayer m l) (.rel name) = .error e := by
          rw [dirLayer, hv]
          rfl
        rw [findIn_error hlayer] at hcons
        cases hcons
      | ok v =>
        have hlayer : dirLayer fs l.idx i (lastLayer m l) (.rel name) = .ok (v.outcome name) := by
          rw [dirLayer, hv]
          rfl
        rw [hv] at happ'
        rw [findRoot_cons (dirLayer_abs happ')]
        rw [findIn_cons (l := ⟨l.idx, i⟩) hlayer] at hcons
        cases v with
        | absent => exact hbelow name [] found hcons
        | whiteout => exact hcons
        | nondir => exact hcons
        | plain j => exact hbelow name [⟨l.idx, j⟩] found hcons
        | opaqueDir j => exact hcons
        | redirected j r =>
          cases r with
          | rel r => exact hbelow r [⟨l.idx, j⟩] found hcons
          | abs r =>
            rw [← hdrop]
            exact hcons

end Compose

end FzzOverlay
