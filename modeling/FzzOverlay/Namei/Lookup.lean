import FzzOverlay.Entry

/-!
# Looking a name up

`ovl_lookup` of `namei.c` with `ovl_lookup_layer` and `ovl_lookup_single`. A layer is a
number, 0 for the upper layer and `layer->idx` for a lower one, and an inode is a number
in its layer. A redirect is a name or an absolute path, given by its components. File
handles and the index are not modelled: what comparing, decoding and looking them up
gives is part of the mount.
-/

namespace FzzOverlay

def EREMOTE : Errno := ⟨66, by decide⟩
def ELOOP : Errno := ⟨40, by decide⟩
def ENAMETOOLONG : Errno := ⟨36, by decide⟩

/-- The types of real inodes that lookup tells apart. -/
inductive RealKind where
  | dir | reg | whiteout | other
  deriving DecidableEq

/-- `d_name`, or the value of `OVL_XATTR_REDIRECT`. -/
inductive Redirect where
  | rel (name : List UInt8)
  | abs (path : List (List UInt8))
  deriving DecidableEq

/-- A real inode with the overlay attributes: `weird` is `ovl_dentry_weird`, `trap` is
`ovl_lookup_trap_inode`, and reading an attribute may fail. -/
structure LayerInode where
  kind : RealKind
  isOpaque : Bool
  redirect : Except Errno (Option Redirect)
  metacopy : Except Errno Bool
  weird : Bool
  trap : Bool

/-- A directory or file of a lower layer. -/
structure LowerPath where
  idx : ℕ
  ino : ℕ
  deriving DecidableEq

/-- The layers: the inodes and what `lookup_one_len` finds under a name. -/
structure Layers where
  inode : ℕ → ℕ → LayerInode
  lookup : ℕ → ℕ → List UInt8 → Except Errno (Option ℕ)

/-- The configuration and what `ovl_lookup` reads besides the layers. -/
structure Mount where
  redirectDir : Bool
  redirectFollow : Bool
  metacopy : Bool
  index : Bool
  nfsExport : Bool
  noxattr : Bool
  indexdir : Bool
  namelen : ℕ
  /-- The lower stack of the root: the roots of all lower layers. -/
  root : List LowerPath
  /-- The origin decoded from an upper file. -/
  checkOrigin : ℕ → Except Errno (Option LowerPath)
  fixOrigin : ℕ → LowerPath → Option Errno
  verifyOrigin : ℕ → LowerPath → Option Errno
  lookupIndex : Option ℕ → LowerPath → Except Errno (Option ℕ)
  getInode : Option ℕ → List LowerPath → Option Errno
  remote : ℕ → Bool

/-- `struct ovl_entry` and the upper of a directory. -/
structure OvlEntry where
  upper : Option ℕ
  lowerstack : List LowerPath
  deriving DecidableEq

/-- `struct ovl_lookup_data`. -/
structure LookupData where
  name : Redirect
  isDir : Bool
  isOpaque : Bool
  stop : Bool
  last : Bool
  redirect : Option Redirect
  metacopy : Bool

def Redirect.isAbs : Redirect → Bool
  | .rel _ => false
  | .abs _ => true

/-- `ovl_check_redirect`. The components before the one looked up are `pre`, of a name
that is not a path there are none, and `post` are those behind it. -/
def ovlCheckRedirect (n : LayerInode) (d : LookupData) (pre : Option (List (List UInt8)))
    (post : List (List UInt8)) : Except Errno LookupData :=
  match n.redirect with
  | .error e => .error e
  | .ok none => .ok d
  | .ok (some (.abs r)) =>
    .ok { d with stop := false, redirect := some (.abs (r ++ post)), name := .abs (r ++ post) }
  | .ok (some (.rel r)) =>
    let name := match pre with
      | none => Redirect.rel r
      | some pre => .abs (pre ++ r :: post)
    .ok { d with redirect := some name, name := name }

/-- `ovl_check_metacopy_xattr`. -/
def ovlCheckMetacopyXattr (n : LayerInode) : Except Errno Bool :=
  if n.kind ≠ .reg then .ok false else n.metacopy

section Single

variable (fs : Layers)

/-- `ovl_lookup_single` in the directory `base` of a layer. -/
def ovlLookupSingle (layer base : ℕ) (d : LookupData) (name : List UInt8)
    (pre : Option (List (List UInt8))) (post : List (List UInt8)) :
    Except Errno (LookupData × Option ℕ) :=
  let lastElement := post.isEmpty
  match fs.lookup layer base name with
  | .error e => if e.ret = ENOENT.ret ∨ e.ret = ENAMETOOLONG.ret then .ok (d, none) else .error e
  | .ok none => .ok (d, none)
  | .ok (some this) =>
    let n := fs.inode layer this
    if n.weird then .error EREMOTE
    else if n.kind = .whiteout then .ok ({ d with stop := true, isOpaque := true }, none)
    else if lastElement ∧ d.metacopy ∧ n.kind ≠ .reg then .ok ({ d with stop := true }, none)
    else if n.kind ≠ .dir then
      if d.isDir ∨ !lastElement then .ok ({ d with stop := true }, none)
      else
        match ovlCheckMetacopyXattr n with
        | .error e => .error e
        | .ok m =>
          let d := { d with metacopy := m, stop := !m }
          if !m ∨ d.last then .ok (d, some this)
          else (ovlCheckRedirect n d pre post).map (·, some this)
    else if n.trap then .error ELOOP
    else
      let d := { d with isDir := d.isDir || lastElement }
      if d.last then .ok (d, some this)
      else if n.isOpaque then
        .ok ({ d with stop := true, isOpaque := d.isOpaque || lastElement }, some this)
      else (ovlCheckRedirect n d pre post).map (·, some this)

/-- The inode that a layer has under a name. -/
def childAt (layer base : ℕ) (name : List UInt8) : Option ℕ :=
  match fs.lookup layer base name with
  | .ok i => i
  | .error _ => none

/-- Everything `ovl_lookup_single` can do without an error. -/
inductive SingleCase (layer base : ℕ) (d : LookupData) (name : List UInt8)
    (pre : Option (List (List UInt8))) (post : List (List UInt8)) :
    LookupData → Option ℕ → Prop
  | absent (hchild : childAt fs layer base name = none) :
      SingleCase layer base d name pre post d none
  | whiteout (i : ℕ) (hchild : childAt fs layer base name = some i)
      (hkind : (fs.inode layer i).kind = .whiteout) :
      SingleCase layer base d name pre post { d with stop := true, isOpaque := true } none
  | blocked (i : ℕ) (hchild : childAt fs layer base name = some i)
      (hkind : (fs.inode layer i).kind ≠ .whiteout)
      (hwhy : (post = [] ∧ d.metacopy = true ∧ (fs.inode layer i).kind ≠ .reg) ∨
        ((fs.inode layer i).kind ≠ .dir ∧ (d.isDir = true ∨ post ≠ []))) :
      SingleCase layer base d name pre post { d with stop := true } none
  | file (i : ℕ) (mc : Bool) (d' : LookupData)
      (hchild : childAt fs layer base name = some i)
      (hkind : (fs.inode layer i).kind ≠ .whiteout) (hdir : (fs.inode layer i).kind ≠ .dir)
      (hreg : d.metacopy = true → (fs.inode layer i).kind = .reg)
      (hlast : post = []) (hnot : d.isDir = false)
      (hmeta : ovlCheckMetacopyXattr (fs.inode layer i) = .ok mc)
      (hd : (d' = { d with metacopy := mc, stop := !mc } ∧ (mc = false ∨ d.last = true)) ∨
        (mc = true ∧ d.last = false ∧ ovlCheckRedirect (fs.inode layer i)
          { d with metacopy := mc, stop := !mc } pre post = .ok d')) :
      SingleCase layer base d name pre post d' (some i)
  | dir (i : ℕ) (d' : LookupData)
      (hchild : childAt fs layer base name = some i)
      (hdir : (fs.inode layer i).kind = .dir) (hmeta : post = [] → d.metacopy = false)
      (hd : (d.last = true ∧ d' = { d with isDir := d.isDir || post.isEmpty }) ∨
        (d.last = false ∧ (fs.inode layer i).isOpaque = true ∧
          d' = { d with isDir := d.isDir || post.isEmpty, stop := true,
                        isOpaque := d.isOpaque || post.isEmpty }) ∨
        (d.last = false ∧ (fs.inode layer i).isOpaque = false ∧
          ovlCheckRedirect (fs.inode layer i)
            { d with isDir := d.isDir || post.isEmpty } pre post = .ok d')) :
      SingleCase layer base d name pre post d' (some i)

theorem ovlLookupSingle_cases {layer base : ℕ} {d d' : LookupData} {name : List UInt8}
    {pre : Option (List (List UInt8))} {post : List (List UInt8)} {res : Option ℕ}
    (h : ovlLookupSingle fs layer base d name pre post = .ok (d', res)) :
    SingleCase fs layer base d name pre post d' res := by
  have hmap : ∀ {i : ℕ} (x : Except Errno LookupData),
      x.map (fun d => (d, some i)) = .ok (d', res) → x = .ok d' ∧ res = some i := by
    intro i x hx
    cases x with
    | error e => cases hx
    | ok d =>
      obtain ⟨rfl, rfl⟩ := Prod.mk.inj (Except.ok.inj hx)
      exact ⟨rfl, rfl⟩
  unfold ovlLookupSingle at h
  cases hl : fs.lookup layer base name with
  | error e =>
    rw [hl] at h
    simp only at h
    split at h
    · obtain ⟨rfl, rfl⟩ := Prod.mk.inj (Except.ok.inj h)
      exact .absent (by rw [childAt, hl])
    · cases h
  | ok i =>
    have hchild : childAt fs layer base name = i := by rw [childAt, hl]
    cases i with
    | none =>
      rw [hl] at h
      obtain ⟨rfl, rfl⟩ := Prod.mk.inj (Except.ok.inj h)
      exact .absent hchild
    | some i =>
      rw [hl] at h
      simp only [List.isEmpty_iff] at h
      split at h
      · cases h
      split at h
      · next hw =>
        obtain ⟨rfl, rfl⟩ := Prod.mk.inj (Except.ok.inj h)
        exact .whiteout i hchild hw
      next hw =>
      split at h
      · next hm =>
        obtain ⟨rfl, rfl⟩ := Prod.mk.inj (Except.ok.inj h)
        exact .blocked i hchild hw (.inl hm)
      next hm =>
      split at h
      · next hk =>
        split at h
        · next hb =>
          obtain ⟨rfl, rfl⟩ := Prod.mk.inj (Except.ok.inj h)
          refine .blocked i hchild hw (.inr ⟨hk, hb.imp_right ?_⟩)
          simp
        next hb =>
        have hpost : post = [] := by simpa using fun hp => hb (.inr hp)
        have hisDir : d.isDir = false := eq_false_of_ne_true fun hd => hb (.inl hd)
        have hreg : d.metacopy = true → (fs.inode layer i).kind = .reg := by
          intro hmc
          by_contra hne
          exact hm ⟨hpost, hmc, hne⟩
        split at h
        · cases h
        next mc hmc =>
        split at h
        · next hlast =>
          obtain ⟨rfl, rfl⟩ := Prod.mk.inj (Except.ok.inj h)
          refine .file i mc _ hchild hw hk hreg hpost hisDir hmc (.inl ⟨rfl, ?_⟩)
          exact hlast.imp_left (by simp)
        · next hlast =>
          obtain ⟨hred, rfl⟩ := hmap _ h
          refine .file i mc _ hchild hw hk hreg hpost hisDir hmc (.inr ⟨?_, ?_, hred⟩)
          · simpa using fun hp => hlast (.inl hp)
          · exact eq_false_of_ne_true fun hp => hlast (.inr hp)
      · next hk =>
        have hdir : (fs.inode layer i).kind = .dir := not_not.mp hk
        have hmc : post = [] → d.metacopy = false := by
          intro hp
          apply eq_false_of_ne_true
          intro hmc
          exact hm ⟨hp, hmc, by rw [hdir]; decide⟩
        split at h
        · cases h
        split at h
        · next hlast =>
          obtain ⟨rfl, rfl⟩ := Prod.mk.inj (Except.ok.inj h)
          exact .dir i _ hchild hdir hmc (.inl ⟨hlast, rfl⟩)
        next hlast =>
        have hlast' : d.last = false := eq_false_of_ne_true hlast
        split at h
        · next ho =>
          obtain ⟨rfl, rfl⟩ := Prod.mk.inj (Except.ok.inj h)
          exact .dir i _ hchild hdir hmc (.inr (.inl ⟨hlast', ho, rfl⟩))
        · next ho =>
          obtain ⟨hred, rfl⟩ := hmap _ h
          exact .dir i _ hchild hdir hmc
            (.inr (.inr ⟨hlast', eq_false_of_ne_true ho, hred⟩))

theorem childAt_eq_some {layer base i : ℕ} {name : List UInt8}
    (h : childAt fs layer base name = some i) : fs.lookup layer base name = .ok (some i) := by
  unfold childAt at h
  split at h
  · next hl => rw [hl, h]
  · cases h

theorem ovlLookupSingle_absent {layer base : ℕ} {d : LookupData} {name : List UInt8}
    {pre : Option (List (List UInt8))} {post : List (List UInt8)}
    (hchild : childAt fs layer base name = none)
    (herr : ∀ e, fs.lookup layer base name = .error e →
      e.ret = ENOENT.ret ∨ e.ret = ENAMETOOLONG.ret) :
    ovlLookupSingle fs layer base d name pre post = .ok (d, none) := by
  unfold ovlLookupSingle
  cases hlook : fs.lookup layer base name with
  | error e => simp only [if_pos (herr e hlook)]
  | ok i =>
    simp only [childAt, hlook] at hchild
    rw [hchild]

theorem ovlLookupSingle_whiteout {layer base i : ℕ} {d : LookupData} {name : List UInt8}
    {pre : Option (List (List UInt8))} {post : List (List UInt8)}
    (hchild : childAt fs layer base name = some i) (hweird : (fs.inode layer i).weird = false)
    (hkind : (fs.inode layer i).kind = .whiteout) :
    ovlLookupSingle fs layer base d name pre post =
      .ok ({ d with stop := true, isOpaque := true }, none) := by
  simp [ovlLookupSingle, childAt_eq_some fs hchild, hweird, hkind]

/-- What comes before the last `k` components of the path that is looked up: the
source counts from the end, since a redirect changes the beginning. -/
def LookupData.before (d : LookupData) (k : ℕ) : List (List UInt8) :=
  match d.name with
  | .rel _ => []
  | .abs path => path.take (path.length - k)

/-- The loop of `ovl_lookup_layer` over the components of an absolute path. -/
def lookupPath (layer : ℕ) : List (List UInt8) → ℕ → LookupData →
    Except Errno (LookupData × Option ℕ)
  | [], _, d => .ok (d, none)
  | name :: post, base, d =>
    match ovlLookupSingle fs layer base d name (some (d.before (post.length + 1))) post with
    | .error e => .error e
    | .ok (d, none) => .ok (d, none)
    | .ok (d, some this) =>
      if post = [] ∨ (fs.inode layer this).kind ≠ .dir then .ok (d, some this)
      else lookupPath layer post this d

/-- `ovl_lookup_layer`. -/
def ovlLookupLayer (layer base : ℕ) (d : LookupData) :
    Except Errno (LookupData × Option ℕ) :=
  match d.name with
  | .rel name => ovlLookupSingle fs layer base d name none []
  | .abs path => lookupPath fs layer path base d

end Single

/-- What `ovl_lookup` knows when it is through with the upper layer. -/
structure UpperLookup where
  d : LookupData
  upper : Option ℕ
  originPath : Option LowerPath
  metacopy : Bool

/-- The local variables of the loop over the lower layers; `stack` has the first `ctr`
places of the array. -/
structure LowerLookup where
  d : LookupData
  stack : List LowerPath
  origin : Option LowerPath
  metacopy : Bool

/-- How a pass of that loop ends: with the next layer, with a `break`, or with `poe`
set to the entry of the root. -/
inductive LowerPass where
  | next (st : LowerLookup)
  | break (st : LowerLookup)
  | toRoot (st : LowerLookup)

/-- A dentry after lookup. -/
structure Found where
  entry : OvlEntry
  upperAlias : Bool
  isOpaque : Bool
  redirect : Option Redirect

/-- `d_is_positive`. -/
def Found.positive (r : Found) : Bool := r.entry.upper.isSome || !r.entry.lowerstack.isEmpty

section Lookup

variable (m : Mount) (fs : Layers)

/-- The initial `struct ovl_lookup_data` of `ovl_lookup`. -/
def initData (parent : OvlEntry) (name : List UInt8) : LookupData where
  name := .rel name
  isDir := false
  isOpaque := false
  stop := false
  last := if m.redirectFollow then false else parent.lowerstack.isEmpty
  redirect := none
  metacopy := false

/-- The part of `ovl_lookup` about the upper layer. -/
def lookupUpper (parent : OvlEntry) (name : List UInt8) : Except Errno UpperLookup :=
  match parent.upper with
  | none => .ok ⟨initData m parent name, none, none, false⟩
  | some upperdir =>
    match ovlLookupLayer fs 0 upperdir (initData m parent name) with
    | .error e => .error e
    | .ok (d, none) => .ok ⟨d, none, none, false⟩
    | .ok (d, some upper) =>
      if m.remote upper then .error EREMOTE
      else if !d.isDir then
        (m.checkOrigin upper).map fun o => ⟨d, some upper, o, d.metacopy⟩
      else .ok ⟨d, some upper, none, false⟩

/-- `d.last` for a lower layer; `rest` are the layers behind it. -/
def lowerLast (lower : LowerPath) (rest : List LowerPath) : Bool :=
  if !m.redirectFollow then rest.isEmpty else decide (lower.idx = m.root.length)

/-- One pass of the loop over the lower layers. -/
def lowerPass (up : UpperLookup) (lower : LowerPath) (rest : List LowerPath)
    (st : LowerLookup) : Except Errno LowerPass :=
  match ovlLookupLayer fs lower.idx lower.ino { st.d with last := lowerLast m lower rest } with
  | .error e => .error e
  | .ok (d, none) => .ok (.next { st with d := d })
  | .ok (d, some ino) =>
    let this : LowerPath := ⟨lower.idx, ino⟩
    let verify := (d.isDir && m.nfsExport && m.index) ||
      (!d.isDir && m.index && up.originPath.isSome)
    match up.upper, decide (st.stack = []) with
    | some u, true =>
      match (if !m.noxattr ∧ d.isDir then m.fixOrigin u this else none) with
      | some e => .error e
      | none =>
        match (if verify then m.verifyOrigin u this else none) with
        | some e => if d.isDir then .ok (.break { st with d := d }) else .error e
        | none => stackThis d this (if verify then some this else st.origin)
    | _, _ => stackThis d this st.origin
where
  /-- The end of the pass: `this` goes on the stack. -/
  stackThis (d : LookupData) (this : LowerPath) (origin : Option LowerPath) :
      Except Errno LowerPass :=
    let metacopy := st.metacopy || d.metacopy
    if d.metacopy ∧ st.stack ≠ [] then .ok (.next ⟨d, st.stack, origin, metacopy⟩)
    else
      let st : LowerLookup := ⟨d, st.stack ++ [this], origin, metacopy⟩
      if d.redirect.isSome ∧ !m.redirectFollow then .error EPERM
      else if d.stop then .ok (.break st)
      else if (d.redirect.map Redirect.isAbs).getD false then .ok (.toRoot st)
      else .ok (.next st)

/-- The loop when `poe` is the entry of the root. -/
def rootLoop (up : UpperLookup) : List LowerPath → LowerLookup → Except Errno LowerLookup
  | [], st => .ok st
  | lower :: rest, st =>
    if st.d.stop then .ok st
    else
      match lowerPass m fs up lower rest st with
      | .error e => .error e
      | .ok (.next st) => rootLoop up rest st
      | .ok (.break st) => .ok st
      | .ok (.toRoot st) => rootLoop up rest st

/-- The loop when `poe` is the entry of the parent. -/
def poeLoop (up : UpperLookup) : List LowerPath → LowerLookup → Except Errno LowerLookup
  | [], st => .ok st
  | lower :: rest, st =>
    if st.d.stop then .ok st
    else
      match lowerPass m fs up lower rest st with
      | .error e => .error e
      | .ok (.next st) => poeLoop up rest st
      | .ok (.break st) => .ok st
      | .ok (.toRoot st) => rootLoop m fs up (m.root.drop lower.idx) st

/-- The loop over the lower layers. -/
def lookupLower (parent : OvlEntry) (up : UpperLookup) : Except Errno LowerLookup :=
  let st : LowerLookup := ⟨up.d, [], none, up.metacopy⟩
  if (up.d.redirect.map Redirect.isAbs).getD false then rootLoop m fs up m.root st
  else poeLoop m fs up parent.lowerstack st

/-- The checks for metadata-only files behind the loop: the lower stack of the dentry. -/
def lookupStack (up : UpperLookup) (st : LowerLookup) : Except Errno (List LowerPath) :=
  if st.metacopy then
    if st.d.metacopy then .error EIO
    else if !m.metacopy then .error EPERM
    else .ok st.stack
  else if !st.d.isDir ∧ up.upper.isSome ∧ st.stack = [] then .ok up.originPath.toList
  else .ok st.stack

/-- The origin whose index entry is looked up. -/
def lookupOrigin (up : UpperLookup) (st : LowerLookup) (stack : List LowerPath) :
    Option LowerPath :=
  if stack ≠ [] ∧ (up.upper = none ∨ (!st.d.isDir ∧ !st.metacopy)) then stack.head?
  else st.origin

/-- The index entry of a dentry, if it has one. -/
def lookupIndexOf (up : UpperLookup) (st : LowerLookup) (stack : List LowerPath) :
    Except Errno (Option ℕ) :=
  match lookupOrigin up st stack with
  | none => .ok none
  | some origin =>
    if m.indexdir ∧ (!st.d.isDir ∨ (m.nfsExport ∧ m.index)) then m.lookupIndex up.upper origin
    else .ok none

/-- `upperredirect`. -/
def lookupRedirect (up : UpperLookup) (index : Option ℕ) : Except Errno (Option Redirect) :=
  match up.upper, index with
  | none, some i => (fs.inode 0 i).redirect
  | _, _ => .ok up.d.redirect

/-- The end of `ovl_lookup`: a dentry that is not negative gets an inode. -/
def lookupInode (r : Found) : Except Errno Found :=
  if r.positive then
    match m.getInode r.entry.upper r.entry.lowerstack with
    | some e => .error e
    | none => .ok r
  else .ok r

/-- `ovl_lookup` of a name in a directory. -/
def ovlLookup (parent : OvlEntry) (name : List UInt8) : Except Errno Found := do
  if m.namelen < name.length then
    .error ENAMETOOLONG
  else
    let up ← lookupUpper m fs parent name
    let st ← lookupLower m fs parent up
    let stack ← lookupStack m up st
    let index ← lookupIndexOf m up st stack
    let redirect ← lookupRedirect fs up index
    lookupInode m ⟨⟨up.upper <|> index, stack⟩, up.upper.isSome, up.d.isOpaque, redirect⟩

variable {m fs}

/-- Everything the lookup in the upper layer can do without an error. -/
inductive UpperCase (m : Mount) (fs : Layers) (parent : OvlEntry) (name : List UInt8) :
    UpperLookup → Prop
  | absent (hchild : ∀ u, parent.upper = some u → childAt fs 0 u name = none) :
      UpperCase m fs parent name ⟨initData m parent name, none, none, false⟩
  | whiteout (u i : ℕ) (hparent : parent.upper = some u) (hchild : childAt fs 0 u name = some i)
      (hkind : (fs.inode 0 i).kind = .whiteout) :
      UpperCase m fs parent name
        ⟨{ initData m parent name with stop := true, isOpaque := true }, none, none, false⟩
  | found (u i : ℕ) (d : LookupData) (origin : Option LowerPath) (mc : Bool)
      (hparent : parent.upper = some u) (hchild : childAt fs 0 u name = some i)
      (hkind : (fs.inode 0 i).kind ≠ .whiteout)
      (hd : ovlLookupSingle fs 0 u (initData m parent name) name none [] = .ok (d, some i))
      (hfile : d.isDir = true → origin = none ∧ mc = false) :
      UpperCase m fs parent name ⟨d, some i, origin, mc⟩

theorem lookupUpper_cases {parent : OvlEntry} {name : List UInt8} {up : UpperLookup}
    (h : lookupUpper m fs parent name = .ok up) : UpperCase m fs parent name up := by
  unfold lookupUpper at h
  cases hparent : parent.upper with
  | none =>
    rw [hparent] at h
    rw [← Except.ok.inj h]
    exact .absent fun u hu => absurd (hparent.symm.trans hu) (by simp)
  | some u =>
    simp only [hparent, show ovlLookupLayer fs 0 u (initData m parent name) =
      ovlLookupSingle fs 0 u (initData m parent name) name none [] from rfl] at h
    split at h
    · cases h
    · next d hd =>
      rw [← Except.ok.inj h]
      cases ovlLookupSingle_cases fs hd with
      | absent hchild =>
        refine .absent fun u' hu' => ?_
        rw [← Option.some.inj (hparent.symm.trans hu')]
        exact hchild
      | whiteout i hchild hkind => exact .whiteout u i hparent hchild hkind
      | blocked i hchild hkind hwhy => simp [initData] at hwhy
    · next d i hd =>
      have hkind : childAt fs 0 u name = some i ∧ (fs.inode 0 i).kind ≠ .whiteout := by
        cases ovlLookupSingle_cases fs hd with
        | file i mc d' hchild hkind => exact ⟨hchild, hkind⟩
        | dir i d' hchild hdir => exact ⟨hchild, by rw [hdir]; decide⟩
      split at h
      · cases h
      split at h
      · next hdir =>
        cases horigin : m.checkOrigin i with
        | error e => rw [horigin] at h; cases h
        | ok origin =>
          rw [horigin] at h
          rw [← Except.ok.inj h]
          refine .found u i d origin d.metacopy hparent hkind.1 hkind.2 hd fun hd => ?_
          simp [hd] at hdir
      · rw [← Except.ok.inj h]
        exact .found u i d none false hparent hkind.1 hkind.2 hd fun _ => ⟨rfl, rfl⟩

/-- `ovl_verify_origin` refuses the first lower directory. -/
structure RefusesOrigin (m : Mount) (up : UpperLookup) (l : LowerPath) : Prop where
  nfsExport : m.nfsExport = true
  index : m.index = true
  origin : ∃ u, up.upper = some u ∧ (m.verifyOrigin u l).isSome = true

/-- What a pass without an error did: nothing was found, or a directory was refused
because it is not the origin, or something was put on the stack. -/
theorem lowerPass_ok {up : UpperLookup} {lower : LowerPath} {rest : List LowerPath}
    {st : LowerLookup} {p : LowerPass} (h : lowerPass m fs up lower rest st = .ok p) :
    ∃ d res, ovlLookupLayer fs lower.idx lower.ino
        { st.d with last := lowerLast m lower rest } = .ok (d, res) ∧
      ((res = none ∧ p = .next { st with d := d }) ∨
        (∃ ino, res = some ino ∧ up.upper.isSome = true ∧ st.stack = [] ∧ d.isDir = true ∧
          RefusesOrigin m up ⟨lower.idx, ino⟩ ∧ p = .break { st with d := d }) ∨
        ∃ ino origin, res = some ino ∧
          (origin = st.origin ∨ (st.stack = [] ∧ origin = some ⟨lower.idx, ino⟩)) ∧
          lowerPass.stackThis m st d ⟨lower.idx, ino⟩ origin = .ok p) := by
  unfold lowerPass at h
  split at h
  · cases h
  · next d hl => exact ⟨d, none, hl, .inl ⟨rfl, (Except.ok.inj h).symm⟩⟩
  · next d ino hl =>
    refine ⟨d, some ino, hl, .inr ?_⟩
    split at h
    · next u hu hs =>
      -- the results of the two checks, so that only the outer matches are split
      simp only at h
      generalize (if (!m.noxattr) = true ∧ d.isDir = true then
        m.fixOrigin u ⟨lower.idx, ino⟩ else none) = fixed at h
      cases fixed with
      | some e => cases h
      | none =>
        simp only at h
        generalize hverified : (if (d.isDir && m.nfsExport && m.index ||
          !d.isDir && m.index && up.originPath.isSome) = true then
          m.verifyOrigin u ⟨lower.idx, ino⟩ else none) = verified at h
        cases verified with
        | some e =>
          simp only at h
          split at h
          · next hd =>
            have hrefuses : RefusesOrigin m up ⟨lower.idx, ino⟩ := by
              split at hverified
              · next hverify =>
                obtain ⟨hnfs, hindex⟩ : m.nfsExport = true ∧ m.index = true := by
                  simpa [hd] using hverify
                exact ⟨hnfs, hindex, u, hu, by rw [hverified]; rfl⟩
              · cases hverified
            exact .inl ⟨ino, rfl, by rw [hu]; rfl, of_decide_eq_true hs, hd, hrefuses,
              (Except.ok.inj h).symm⟩
          · cases h
        | none =>
          refine .inr ⟨ino, _, rfl, ?_, h⟩
          split
          · exact .inr ⟨of_decide_eq_true hs, rfl⟩
          · exact .inl rfl
    · exact .inr ⟨ino, _, rfl, .inl rfl, h⟩

theorem lowerPass_absent {up : UpperLookup} {lower : LowerPath} {rest : List LowerPath}
    {st : LowerLookup} {d : LookupData} (h : ovlLookupLayer fs lower.idx lower.ino
      { st.d with last := lowerLast m lower rest } = .ok (d, none)) :
    lowerPass m fs up lower rest st = .ok (.next { st with d := d }) := by
  rw [lowerPass, h]

theorem poeLoop_of_next {up : UpperLookup} {l : LowerPath} {ls : List LowerPath}
    {st st' : LowerLookup} (hstop : st.d.stop = false)
    (h : lowerPass m fs up l ls st = .ok (.next st')) :
    poeLoop m fs up (l :: ls) st = poeLoop m fs up ls st' := by
  rw [poeLoop, hstop, h]
  rfl

theorem poeLoop_of_stop {up : UpperLookup} {ls : List LowerPath} {st : LowerLookup}
    (hstop : st.d.stop = true) : poeLoop m fs up ls st = .ok st := by
  cases ls with
  | nil => rfl
  | cons l ls => rw [poeLoop, if_pos hstop]

/-- The local variables that a pass leaves. -/
def LowerPass.st : LowerPass → LowerLookup
  | .next st => st
  | .break st => st
  | .toRoot st => st

/-- How a pass that finds `this` can end. -/
inductive StackCase (m : Mount) (st : LowerLookup) (d : LookupData) (this : LowerPath)
    (origin : Option LowerPath) : LowerPass → Prop
  | skip (hmeta : d.metacopy = true) (hne : st.stack ≠ []) :
      StackCase m st d this origin (.next ⟨d, st.stack, origin, st.metacopy || d.metacopy⟩)
  | stop (hmeta : d.metacopy = true → st.stack = [])
      (hfollow : d.redirect.isSome = true → m.redirectFollow = true) (hstop : d.stop = true) :
      StackCase m st d this origin
        (.break ⟨d, st.stack ++ [this], origin, st.metacopy || d.metacopy⟩)
  | toRoot (hmeta : d.metacopy = true → st.stack = [])
      (hfollow : d.redirect.isSome = true → m.redirectFollow = true) (hstop : d.stop = false)
      (habs : (d.redirect.map Redirect.isAbs).getD false = true) :
      StackCase m st d this origin
        (.toRoot ⟨d, st.stack ++ [this], origin, st.metacopy || d.metacopy⟩)
  | next (hmeta : d.metacopy = true → st.stack = [])
      (hfollow : d.redirect.isSome = true → m.redirectFollow = true) (hstop : d.stop = false)
      (habs : (d.redirect.map Redirect.isAbs).getD false = false) :
      StackCase m st d this origin
        (.next ⟨d, st.stack ++ [this], origin, st.metacopy || d.metacopy⟩)

theorem stackThis_cases {st : LowerLookup} {d : LookupData} {this : LowerPath}
    {origin : Option LowerPath} {p : LowerPass}
    (h : lowerPass.stackThis m st d this origin = .ok p) : StackCase m st d this origin p := by
  unfold lowerPass.stackThis at h
  simp only at h
  split at h
  · next hs =>
    rw [← Except.ok.inj h]
    exact .skip hs.1 hs.2
  next hs =>
  have hmeta : d.metacopy = true → st.stack = [] := by
    intro hd
    by_contra hne
    exact hs ⟨hd, hne⟩
  split at h
  · cases h
  next hf =>
  have hfollow : d.redirect.isSome = true → m.redirectFollow = true := by
    intro hd
    by_contra hne
    exact hf ⟨hd, by simpa using hne⟩
  split at h
  · next hstop =>
    rw [← Except.ok.inj h]
    exact .stop hmeta hfollow hstop
  next hstop =>
  have hstop' : d.stop = false := eq_false_of_ne_true hstop
  split at h
  · next habs =>
    rw [← Except.ok.inj h]
    exact .toRoot hmeta hfollow hstop' habs
  · next habs =>
    rw [← Except.ok.inj h]
    exact .next hmeta hfollow hstop' (eq_false_of_ne_true habs)

section Invariant

variable {I : LowerLookup → Prop} {up : UpperLookup} {ls : List LowerPath} {st st' : LowerLookup}

/-- What every pass keeps, the loop over the root keeps. -/
theorem rootLoop_invariant
    (hpass : ∀ l rest st p, I st → lowerPass m fs up l rest st = .ok p → I p.st)
    (hst : I st) (h : rootLoop m fs up ls st = .ok st') : I st' := by
  induction ls generalizing st with
  | nil =>
    rw [← Except.ok.inj h]
    exact hst
  | cons l ls ih =>
    rw [rootLoop] at h
    split at h
    · rw [← Except.ok.inj h]
      exact hst
    cases hp : lowerPass m fs up l ls st with
    | error e => rw [hp] at h; cases h
    | ok p =>
      have hI := hpass l ls st p hst hp
      rw [hp] at h
      cases p with
      | next st₁ => exact ih hI h
      | «break» st₁ =>
        rw [← Except.ok.inj h]
        exact hI
      | toRoot st₁ => exact ih hI h

/-- What every pass keeps, the loop keeps. -/
theorem poeLoop_invariant
    (hpass : ∀ l rest st p, I st → lowerPass m fs up l rest st = .ok p → I p.st)
    (hst : I st) (h : poeLoop m fs up ls st = .ok st') : I st' := by
  induction ls generalizing st with
  | nil =>
    rw [← Except.ok.inj h]
    exact hst
  | cons l ls ih =>
    rw [poeLoop] at h
    split at h
    · rw [← Except.ok.inj h]
      exact hst
    cases hp : lowerPass m fs up l ls st with
    | error e => rw [hp] at h; cases h
    | ok p =>
      have hI := hpass l ls st p hst hp
      rw [hp] at h
      cases p with
      | next st₁ => exact ih hI h
      | «break» st₁ =>
        rw [← Except.ok.inj h]
        exact hI
      | toRoot st₁ => exact rootLoop_invariant hpass hI h

end Invariant

theorem lookupInode_ok {r r' : Found} (h : lookupInode m r = .ok r') : r' = r := by
  unfold lookupInode at h
  split at h
  · split at h
    · cases h
    · exact (Except.ok.inj h).symm
  · exact (Except.ok.inj h).symm

/-- A lookup succeeds when each of its stages does. -/
theorem ovlLookup_eq_ok {parent : OvlEntry} {name : List UInt8} {r : Found} :
    ovlLookup m fs parent name = .ok r ↔ name.length ≤ m.namelen ∧
      ∃ up st stack index redirect, lookupUpper m fs parent name = .ok up ∧
        lookupLower m fs parent up = .ok st ∧ lookupStack m up st = .ok stack ∧
        lookupIndexOf m up st stack = .ok index ∧ lookupRedirect fs up index = .ok redirect ∧
        r = ⟨⟨up.upper <|> index, stack⟩, up.upper.isSome, up.d.isOpaque, redirect⟩ ∧
        lookupInode m r = .ok r := by
  unfold ovlLookup
  split
  · next hlen =>
    constructor
    · intro h
      cases h
    · rintro ⟨hle, -⟩
      exact absurd hlen (Nat.not_lt.mpr hle)
  next hlen =>
  simp only [bind_eq_ok]
  constructor
  · rintro ⟨up, hup, st, hst, stack, hstack, index, hindex, redirect, hred, h⟩
    have hr := lookupInode_ok h
    rw [← hr] at h
    exact ⟨Nat.not_lt.mp hlen, up, st, stack, index, redirect, hup, hst, hstack, hindex, hred,
      hr, h⟩
  · rintro ⟨-, up, st, stack, index, redirect, hup, hst, hstack, hindex, hred, hr, h⟩
    rw [hr] at h
    exact ⟨up, hup, st, hst, stack, hstack, index, hindex, redirect, hred, hr ▸ h⟩

/-- The stages of a lookup that succeeds. -/
theorem ovlLookup_ok {parent : OvlEntry} {name : List UInt8} {r : Found}
    (h : ovlLookup m fs parent name = .ok r) :
    ∃ up st index redirect, lookupUpper m fs parent name = .ok up ∧
      lookupLower m fs parent up = .ok st ∧
      lookupStack m up st = .ok r.entry.lowerstack ∧
      lookupIndexOf m up st r.entry.lowerstack = .ok index ∧
      lookupRedirect fs up index = .ok redirect ∧
      r = ⟨⟨up.upper <|> index, r.entry.lowerstack⟩, up.upper.isSome, up.d.isOpaque,
        redirect⟩ := by
  obtain ⟨-, up, st, stack, index, redirect, hup, hst, hstack, hindex, hred, rfl, -⟩ :=
    ovlLookup_eq_ok.mp h
  exact ⟨up, st, index, redirect, hup, hst, hstack, hindex, hred, rfl⟩

end Lookup

end FzzOverlay
