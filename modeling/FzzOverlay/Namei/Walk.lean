import FzzOverlay.File.Write
import FzzOverlay.Namei.Lookup
import FzzOverlay.RedirectXattr

/-!
# Walking a path by its bytes

`ovl_lookup_layer` of `namei.c` with `ovl_lookup_single` and `ovl_check_redirect`, on the
strings and buffers that the code works on. The place in the path is `rem`, a count from
its end, while redirects that are met on the way replace what is before it.

## Main definitions

- `Walk.ovlCheckRedirect` — the new name is built in the buffer of the attribute
- `Walk.layerPass` — one pass of the loop of `ovl_lookup_layer`

## Main results

- `Walk.ovlCheckRedirect_spec` — everything fits, and the end of the name stays
- `Walk.walk_on_rails` — the walk ends, no warning is hit, and after every pass the part
  that is left to walk is that of the name it started with
-/

namespace FzzOverlay.Walk

open CString SlashPath

/-- A real inode; `redirect` is what `vfs_getxattr` finds, and `mem` the memory there is
when it is read. -/
structure RawInode where
  kind : RealKind
  isOpaque : Bool
  redirect : Except Errno XattrValue
  metacopy : Except Errno Bool
  weird : Bool
  trap : Bool
  mem : Kmalloc

/-- A layer: its inodes, and what `lookup_one_len` finds under a name. -/
structure RawLayer where
  inode : ℕ → RawInode
  lookup : ℕ → List UInt8 → Except Errno (Option ℕ)

/-- `struct qstr`. -/
structure Qstr where
  name : List UInt8
  len : ℕ

/-- `struct ovl_lookup_data`. -/
structure LookupData where
  name : Qstr
  isDir : Bool
  isOpaque : Bool
  stop : Bool
  last : Bool
  redirect : Option (List UInt8)
  metacopy : Bool

/-- A `size_t` that is passed as an `int`. -/
def toInt (n : ℕ) : ℤ := (n : ℤ).bmod (2 ^ 32)

/-- The part of `ovl_check_redirect` that writes to `buf`; `none` when that leaves the
buffer or reads behind the old name. -/
def fillRedirect (buf name : List UInt8) (prelen : ℕ) (post : List UInt8) :
    Option (List UInt8) :=
  if buf.head? = some slash then strcat buf post
  else if name.length < prelen then none
  else do
    let buf ← store buf prelen (str buf ++ [0])
    let buf ← store buf 0 (name.take prelen)
    strcat buf post

/-- `ovl_check_redirect`. -/
def ovlCheckRedirect (n : RawInode) (d : LookupData) (prelen : ℕ) (post : List UInt8) :
    Outcome (Except Errno LookupData) :=
  match ovlGetRedirectXattr n.mem n.redirect (toInt (prelen + post.length)) with
  | .running => .running
  | .oops => .oops
  | .ret (.error e) => .ret (.error e)
  | .ret (.ok none) => .ret (.ok d)
  | .ret (.ok (some buf)) =>
    match fillRedirect buf d.name.name prelen post with
    | none => .oops
    | some b =>
      .ret (.ok { d with
        stop := if buf.head? = some slash then false else d.stop
        redirect := some (str b)
        name := ⟨str b, (str b).length % 2 ^ 32⟩ })

/-- `ovl_check_metacopy_xattr`. -/
def ovlCheckMetacopyXattr (n : RawInode) : Except Errno Bool :=
  if n.kind ≠ .reg then .ok false else n.metacopy

section Loop

variable (L : RawLayer)

/-- The end of `ovl_lookup_single`, when the redirect is looked at. -/
def withRedirect (this : ℕ) (d : LookupData) (prelen : ℕ) (post : List UInt8) :
    Outcome (Except Errno (LookupData × Option ℕ)) :=
  match ovlCheckRedirect (L.inode this) d prelen post with
  | .running => .running
  | .oops => .oops
  | .ret (.error e) => .ret (.error e)
  | .ret (.ok d) => .ret (.ok (d, some this))

/-- `ovl_lookup_single`. -/
def ovlLookupSingle (base : ℕ) (d : LookupData) (name : List UInt8) (prelen : ℕ)
    (post : List UInt8) : Outcome (Except Errno (LookupData × Option ℕ)) :=
  let lastElement := post.isEmpty
  match L.lookup base name with
  | .error e =>
    if e.ret = ENOENT.ret ∨ e.ret = ENAMETOOLONG.ret then .ret (.ok (d, none))
    else .ret (.error e)
  | .ok none => .ret (.ok (d, none))
  | .ok (some this) =>
    let n := L.inode this
    if n.weird then .ret (.error EREMOTE)
    else if n.kind = .whiteout then
      .ret (.ok ({ d with stop := true, isOpaque := true }, none))
    else if lastElement ∧ d.metacopy ∧ n.kind ≠ .reg then
      .ret (.ok ({ d with stop := true }, none))
    else if n.kind ≠ .dir then
      if d.isDir ∨ !lastElement then .ret (.ok ({ d with stop := true }, none))
      else
        match ovlCheckMetacopyXattr n with
        | .error e => .ret (.error e)
        | .ok m =>
          let d := { d with metacopy := m, stop := !m }
          if !m ∨ d.last then .ret (.ok (d, some this))
          else withRedirect L this d prelen post
    else if n.trap then .ret (.error ELOOP)
    else
      let d := { d with isDir := d.isDir || lastElement }
      if d.last then .ret (.ok (d, some this))
      else if n.isOpaque then
        .ret (.ok ({ d with stop := true, isOpaque := d.isOpaque || lastElement }, some this))
      else withRedirect L this d prelen post

/-- The variables of the loop of `ovl_lookup_layer`. -/
structure LayerWalk where
  base : Option ℕ
  d : LookupData
  rem : ℕ
  dentry : Option ℕ

/-- How a pass of the loop ends: the loop goes on, or it is over, with an error that was
returned, with a `WARN_ON` that fired, or with an access outside a string or buffer. -/
inductive LayerPass where
  | next (w : LayerWalk)
  | done (d : LookupData) (ret : Option ℕ)
  | fail (e : Errno)
  | warn
  | oops

/-- One pass of the loop, with its condition first. -/
def layerPass (w : LayerWalk) : LayerPass :=
  match w.base with
  | none => .done w.d w.dentry
  | some base =>
    if (L.inode base).kind ≠ .dir then .done w.d w.dentry
    else
      let off := usub64 w.d.name.len w.rem
      let s := w.d.name.name.drop off
      let next := strchrnul s
      let thislen := s.length - next.length
      -- `s[-1]` has to be a byte of the name
      if off = 0 ∨ w.d.name.name.length < off then .oops
      else if w.d.name.name[off - 1]? ≠ some slash then .warn
      else
        match ovlLookupSingle L base w.d (s.take thislen) off next with
        | .running => .oops
        | .oops => .oops
        | .ret (.error e) => .fail e
        | .ret (.ok (d, base)) =>
          if next = [] then .done d base
          else
            let rem := usub64 w.rem (thislen + 1)
            if rem ≥ d.name.len then .warn else .next ⟨base, d, rem, base⟩

/-- At most `fuel` passes of the loop. -/
def layerLoop : ℕ → LayerWalk → Outcome (Except Errno (LookupData × Option ℕ))
  | 0, _ => .running
  | fuel + 1, w =>
    match layerPass L w with
    | .next w => layerLoop fuel w
    | .done d ret => .ret (.ok (d, ret))
    | .fail e => .ret (.error e)
    | .warn => .ret (.error EIO)
    | .oops => .oops

/-- The variables before the loop. -/
def startWalk (base : ℕ) (d : LookupData) : LayerWalk :=
  ⟨some base, d, usub64 d.name.len 1, none⟩

/-- `ovl_lookup_layer`. -/
def ovlLookupLayer (fuel base : ℕ) (d : LookupData) :
    Outcome (Except Errno (LookupData × Option ℕ)) :=
  if d.name.name.head? ≠ some slash then ovlLookupSingle L base d d.name.name 0 []
  else layerLoop L fuel (startWalk base d)

/-- The variables after `k` passes, when the loop goes on after each. -/
def afterPasses : ℕ → LayerWalk → Option LayerWalk
  | 0, w => some w
  | k + 1, w =>
    match layerPass L w with
    | .next w => afterPasses k w
    | _ => none

end Loop

/-- A name in memory that was allocated, with its length. -/
structure Qstr.Stored (q : Qstr) : Prop where
  len_eq : q.len = q.name.length
  nonzero : 0 ∉ q.name
  short : q.name.length < KMALLOC_MAX_SIZE

/-- A stored name with a given end. -/
structure Qstr.Ends (q : Qstr) (post : List UInt8) : Prop where
  stored : q.Stored
  suffix : post <:+ q.name

theorem Qstr.Ends.nonzero {q : Qstr} {post : List UInt8} (h : q.Ends post) : 0 ∉ post :=
  fun h0 => h.stored.nonzero (h.suffix.subset h0)

section Redirect

variable {buf name post s : List UInt8} {n prelen : ℕ}

/-- With the padding there is room for what `ovl_check_redirect` writes. -/
theorem fillRedirect_fits (hbuf : Carries buf n s) (hname : 0 ∉ name) (hpost : 0 ∉ post)
    (hpre : prelen ≤ name.length) (hroom : s.length + (prelen + post.length) < n) :
    ∃ b, fillRedirect buf name prelen post = some b ∧
      Carries b n ((if buf.head? = some slash then s else name.take prelen ++ s) ++ post) := by
  by_cases habs : buf.head? = some slash
  · obtain ⟨b, hb, hcarries⟩ := hbuf.strcat hpost (by omega)
    refine ⟨b, ?_, ?_⟩
    · rw [fillRedirect, if_pos habs, hb]
    · rw [if_pos habs]
      exact hcarries
  · have htake : (name.take prelen).length = prelen := by
      rw [List.length_take]
      omega
    have hzero : 0 ∉ name.take prelen := fun h => hname (List.take_subset _ _ h)
    obtain ⟨b₁, b₂, h₁, h₂, hcarries⟩ := hbuf.prepend hzero (by omega)
    obtain ⟨b₃, h₃, hcarries'⟩ := hcarries.strcat hpost (by rw [List.length_append]; omega)
    refine ⟨b₃, ?_, ?_⟩
    · rw [htake] at h₁
      rw [fillRedirect, if_neg habs, if_neg (by omega), hbuf.str_eq, h₁, Option.bind_eq_bind,
        Option.bind_some, h₂]
      exact h₃
    · rw [if_neg habs]
      exact hcarries'

theorem toInt_of_lt {n : ℕ} (h : n < 2 ^ 31) : toInt n = (n : ℤ) := by
  apply Int.bmod_eq_of_le
  · omega
  · omega

/-- `ovl_check_redirect` stays inside its buffer, and the new name ends as the old one. -/
theorem ovlCheckRedirect_spec (n : RawInode) {d : LookupData} (hd : d.name.Ends post)
    (hpre : prelen + post.length ≤ d.name.name.length) :
    (∃ e, ovlCheckRedirect n d prelen post = .ret (.error e)) ∨
      ∃ d', ovlCheckRedirect n d prelen post = .ret (.ok d') ∧ d'.name.Ends post := by
  have hshort := hd.stored.short
  have hmax : KMALLOC_MAX_SIZE = 4194304 := rfl
  have hpad : prelen + post.length + 1 < 2 ^ 31 := by omega
  rw [ovlCheckRedirect, toInt_of_lt (by omega)]
  obtain ⟨e, he⟩ | hnone | ⟨v, buf, -, hmem, -, hcarries, hbuf⟩ :=
    ovlGetRedirectXattr_cases n.mem n.redirect hpad
  · exact .inl ⟨e, by rw [he]⟩
  · exact .inr ⟨d, by rw [hnone], hd⟩
  · have hv : (str v.bytes).length ≤ v.bytes.length := (List.takeWhile_sublist _).length_le
    have hle : prelen ≤ d.name.name.length := by omega
    obtain ⟨b, hb, hcarries'⟩ := fillRedirect_fits hcarries hd.stored.nonzero hd.nonzero hle
      (by omega)
    have hlimit := n.mem.limit _ hmem
    have hlen := Nat.lt_of_lt_of_le hcarries'.length_lt hlimit
    rw [hbuf]
    simp only [hb, hcarries'.str_eq]
    refine .inr ⟨_, rfl, ⟨Nat.mod_eq_of_lt (by omega), hcarries'.nonzero, hlen⟩, ?_⟩
    exact List.suffix_append _ post

end Redirect

section Single

variable {L : RawLayer} {d : LookupData} {name post : List UInt8} {base prelen : ℕ}

/-- An error, or a name that ends with `post`; never a stray access. -/
def Keeps (post : List UInt8) (r : Outcome (Except Errno (LookupData × Option ℕ))) : Prop :=
  (∃ e, r = .ret (.error e)) ∨ ∃ d this, r = .ret (.ok (d, this)) ∧ d.name.Ends post

theorem keeps_error (e : Errno) : Keeps post (.ret (.error e)) := .inl ⟨e, rfl⟩

theorem keeps_ok {this : Option ℕ} (hd : d.name.Ends post) : Keeps post (.ret (.ok (d, this))) :=
  .inr ⟨d, this, rfl, hd⟩

theorem keeps_withRedirect (this : ℕ) (hd : d.name.Ends post)
    (hpre : prelen + post.length ≤ d.name.name.length) :
    Keeps post (withRedirect L this d prelen post) := by
  rw [withRedirect]
  obtain ⟨e, he⟩ | ⟨d', hd', hends⟩ := ovlCheckRedirect_spec (L.inode this) hd hpre
  · rw [he]
    exact keeps_error e
  · rw [hd']
    exact keeps_ok hends

/-- Whatever is under the name, the part behind it stays. -/
theorem keeps_ovlLookupSingle (base : ℕ) (name : List UInt8) (hd : d.name.Ends post)
    (hpre : prelen + post.length ≤ d.name.name.length) :
    Keeps post (ovlLookupSingle L base d name prelen post) := by
  unfold ovlLookupSingle
  simp only
  split
  · split
    · exact keeps_ok hd
    · exact keeps_error _
  · exact keeps_ok hd
  split
  · exact keeps_error _
  split
  · exact keeps_ok hd
  split
  · exact keeps_ok hd
  split
  · split
    · exact keeps_ok hd
    split
    · exact keeps_error _
    split
    · exact keeps_ok hd
    · exact keeps_withRedirect _ hd hpre
  split
  · exact keeps_error _
  split
  · exact keeps_ok hd
  split
  · exact keeps_ok hd
  · exact keeps_withRedirect _ hd hpre

end Single

section Pass

variable {L : RawLayer} {w : LayerWalk} {c : List UInt8} {cs : List (List UInt8)}

/-- The cursor is behind a slash, and `rest` is what is behind the cursor. -/
structure OnRails (w : LayerWalk) (rest : List UInt8) : Prop where
  ends : w.d.name.Ends (slash :: rest)
  rem_eq : w.rem = rest.length

theorem OnRails.off_eq {rest : List UInt8} (h : OnRails w rest) :
    ∃ p, w.d.name.name = p ++ slash :: rest ∧ usub64 w.d.name.len w.rem = p.length + 1 := by
  obtain ⟨p, hp⟩ := h.ends.suffix
  refine ⟨p, hp.symm, ?_⟩
  have hlen := congrArg List.length hp
  have hshort := h.ends.stored.short
  have hmax : KMALLOC_MAX_SIZE = 4194304 := rfl
  rw [List.length_append, List.length_cons] at hlen
  rw [h.ends.stored.len_eq, h.rem_eq, usub64_of_le (by omega) (by omega)]
  omega

theorem OnRails.ends_path (h : OnRails w (c ++ path cs)) : w.d.name.Ends (path cs) := by
  refine ⟨h.ends.stored, List.IsSuffix.trans ?_ h.ends.suffix⟩
  exact (List.suffix_append c (path cs)).trans (List.suffix_cons slash _)

/-- A pass in a directory looks the next component up; the string functions find it. -/
theorem OnRails.pass_eq (h : OnRails w (c ++ path cs)) (hc : slash ∉ c) {base : ℕ}
    (hbase : w.base = some base) (hdir : (L.inode base).kind = .dir) :
    ∃ p, w.d.name.name = p ++ slash :: (c ++ path cs) ∧
      layerPass L w =
        match ovlLookupSingle L base w.d c (p.length + 1) (path cs) with
        | .running => .oops
        | .oops => .oops
        | .ret (.error e) => .fail e
        | .ret (.ok (d, base)) =>
          if path cs = [] then .done d base
          else if usub64 w.rem (c.length + 1) ≥ d.name.len then .warn
          else .next ⟨base, d, usub64 w.rem (c.length + 1), base⟩ := by
  obtain ⟨p, hname, hoff⟩ := h.off_eq
  have hdrop : w.d.name.name.drop (p.length + 1) = c ++ path cs := by
    rw [hname, List.drop_append, List.drop_eq_nil_of_le (by omega)]
    simp
  have hslash : w.d.name.name[p.length + 1 - 1]? = some slash := by
    rw [hname]
    simp
  have hlen : w.d.name.name.length = p.length + 1 + (c.length + (path cs).length) := by
    rw [hname]
    simp only [List.length_append, List.length_cons]
    omega
  have hthis : (c ++ path cs).length - (path cs).length = c.length := by
    rw [List.length_append]
    omega
  have hin : ¬ (p.length + 1 = 0 ∨ w.d.name.name.length < p.length + 1) := by omega
  refine ⟨p, hname, ?_⟩
  simp only [layerPass, hbase, hdir, hoff, hdrop, strchrnul_path hc, hthis, List.take_left,
    if_neg hin, hslash, ne_eq, not_true_eq_false, if_false]

/-- `rem` steps over the component and the slash behind it. -/
theorem OnRails.rem_next {c' : List UInt8} {cs' : List (List UInt8)}
    (h : OnRails w (c ++ path (c' :: cs'))) :
    usub64 w.rem (c.length + 1) = (c' ++ path cs').length := by
  have hwrem := h.rem_eq
  have hshort := h.ends.stored.short
  have hlen := h.ends.suffix.length_le
  have hmax : KMALLOC_MAX_SIZE = 4194304 := rfl
  rw [path_cons, List.length_append, List.length_cons] at hwrem
  rw [List.length_cons, List.length_append, path_cons, List.length_cons] at hlen
  rw [usub64_of_le (by omega) (by omega)]
  omega

/-- The second `WARN_ON` does not fire when the rest of the path is still in the name. -/
theorem OnRails.rem_lt {c' : List UInt8} {cs' : List (List UInt8)} {d : LookupData}
    (h : OnRails w (c ++ path (c' :: cs'))) (hends : d.name.Ends (path (c' :: cs'))) :
    ¬ usub64 w.rem (c.length + 1) ≥ d.name.len := by
  have hle := hends.suffix.length_le
  rw [path_cons, List.length_cons] at hle
  rw [h.rem_next, hends.stored.len_eq]
  omega

/-- One pass from a place on the rails: it ends the loop, or goes on behind the next
slash. -/
theorem layerPass_onRails (h : OnRails w (c ++ path cs)) (hc : slash ∉ c) :
    (∃ d ret, layerPass L w = .done d ret) ∨ (∃ e, layerPass L w = .fail e) ∨
      ∃ c' cs' w', cs = c' :: cs' ∧ layerPass L w = .next w' ∧ OnRails w' (c' ++ path cs') := by
  cases hbase : w.base with
  | none => exact .inl ⟨w.d, w.dentry, by rw [layerPass, hbase]⟩
  | some base =>
    by_cases hdir : (L.inode base).kind = .dir
    · obtain ⟨p, hname, heq⟩ := h.pass_eq hc hbase hdir
      have hroom : p.length + 1 + (path cs).length ≤ w.d.name.name.length := by
        rw [hname]
        simp only [List.length_append, List.length_cons]
        omega
      rw [heq]
      obtain ⟨e, he⟩ | ⟨d, this, hd, hends⟩ := keeps_ovlLookupSingle (L := L) base c
        h.ends_path hroom
      · exact .inr (.inl ⟨e, by rw [he]⟩)
      · rw [hd]
        cases cs with
        | nil => exact .inl ⟨d, this, rfl⟩
        | cons c' cs' =>
          refine .inr (.inr ⟨c', cs', ⟨this, d, usub64 w.rem (c.length + 1), this⟩, rfl, ?_,
            hends, h.rem_next⟩)
          simp only [path_cons, reduceCtorEq, if_false, if_neg (h.rem_lt hends)]
    · refine .inl ⟨w.d, w.dentry, ?_⟩
      simp only [layerPass, hbase, ne_eq, hdir, not_false_eq_true, if_true]

/-- After `k` passes the walk is at component `k`. -/
theorem afterPasses_onRails {k : ℕ} {w' : LayerWalk} (h : OnRails w (c ++ path cs))
    (hc : ∀ x ∈ c :: cs, slash ∉ x) (hw' : afterPasses L k w = some w') :
    ∃ c' cs', (c :: cs).drop k = c' :: cs' ∧ OnRails w' (c' ++ path cs') := by
  induction k generalizing w c cs with
  | zero =>
    obtain rfl := Option.some.inj hw'
    exact ⟨c, cs, rfl, h⟩
  | succ k ih =>
    rw [afterPasses] at hw'
    obtain ⟨d, ret, hpass⟩ | ⟨e, hpass⟩ | ⟨c₁, cs₁, w₁, rfl, hpass, h₁⟩ :=
      layerPass_onRails (L := L) h (hc c (List.mem_cons_self))
    · rw [hpass] at hw'
      cases hw'
    · rw [hpass] at hw'
      cases hw'
    · rw [hpass] at hw'
      exact ih h₁ (fun x hx => hc x (List.mem_cons_of_mem _ hx)) hw'

theorem layerLoop_of_done {d : LookupData} {ret : Option ℕ} {fuel : ℕ} (hfuel : 0 < fuel)
    (h : layerPass L w = .done d ret) : layerLoop L fuel w = .ret (.ok (d, ret)) := by
  cases fuel with
  | zero => omega
  | succ fuel => rw [layerLoop, h]

theorem layerLoop_of_fail {e : Errno} {fuel : ℕ} (hfuel : 0 < fuel)
    (h : layerPass L w = .fail e) : layerLoop L fuel w = .ret (.error e) := by
  cases fuel with
  | zero => omega
  | succ fuel => rw [layerLoop, h]

theorem layerLoop_of_next {w' : LayerWalk} (fuel : ℕ) (h : layerPass L w = .next w') :
    layerLoop L (fuel + 1) w = layerLoop L fuel w' := by
  rw [layerLoop, h]

/-- There are no more passes than components. -/
theorem layerLoop_ends (h : OnRails w (c ++ path cs)) (hc : ∀ x ∈ c :: cs, slash ∉ x) :
    ∃ r, ∀ fuel, cs.length < fuel → layerLoop L fuel w = .ret r := by
  induction cs generalizing w c with
  | nil =>
    obtain ⟨d, ret, hpass⟩ | ⟨e, hpass⟩ | ⟨c₁, cs₁, w₁, hcs, -, -⟩ :=
      layerPass_onRails (L := L) h (hc c (List.mem_cons_self))
    · exact ⟨_, fun fuel hfuel => layerLoop_of_done (by omega) hpass⟩
    · exact ⟨_, fun fuel hfuel => layerLoop_of_fail (by omega) hpass⟩
    · cases hcs
  | cons c' cs ih =>
    obtain ⟨d, ret, hpass⟩ | ⟨e, hpass⟩ | ⟨c₁, cs₁, w₁, hcs, hpass, h₁⟩ :=
      layerPass_onRails (L := L) h (hc c (List.mem_cons_self))
    · exact ⟨_, fun fuel hfuel => layerLoop_of_done (by omega) hpass⟩
    · exact ⟨_, fun fuel hfuel => layerLoop_of_fail (by omega) hpass⟩
    · obtain ⟨rfl, rfl⟩ := List.cons.inj hcs
      obtain ⟨r, hr⟩ := ih h₁ fun x hx => hc x (List.mem_cons_of_mem _ hx)
      refine ⟨r, fun fuel hfuel => ?_⟩
      rw [List.length_cons] at hfuel
      cases fuel with
      | zero => omega
      | succ fuel =>
        rw [layerLoop_of_next fuel hpass]
        exact hr fuel (by omega)

end Pass

section Walk

/-- `s` of `ovl_lookup_layer`: the part of `d->name` that is left to walk. -/
def LayerWalk.rest (w : LayerWalk) : List UInt8 :=
  w.d.name.name.drop (usub64 w.d.name.len w.rem)

theorem OnRails.rest_eq {w : LayerWalk} {rest : List UInt8} (h : OnRails w rest) :
    w.rest = rest := by
  obtain ⟨p, hname, hoff⟩ := h.off_eq
  rw [LayerWalk.rest, hoff, hname, List.drop_append, List.drop_eq_nil_of_le (by omega)]
  simp

theorem startWalk_onRails {base : ℕ} {d : LookupData} {rest : List UInt8}
    (hd : d.name.Stored) (hname : d.name.name = slash :: rest) :
    OnRails (startWalk base d) rest := by
  refine ⟨⟨hd, ?_⟩, ?_⟩
  · exact hname ▸ List.suffix_rfl
  · have hshort := hd.short
    have hmax : KMALLOC_MAX_SIZE = 4194304 := rfl
    have hlen : d.name.name.length = rest.length + 1 := by rw [hname, List.length_cons]
    change usub64 d.name.len 1 = rest.length
    rw [hd.len_eq, usub64_of_le (by omega) (by omega)]
    omega

theorem length_le_path (cs : List (List UInt8)) : cs.length ≤ (path cs).length := by
  induction cs with
  | nil => simp
  | cons c cs ih =>
    rw [path_cons, List.length_cons, List.length_cons, List.length_append]
    omega

/-- The walk along an absolute name: after each pass the part that is left is what is left
of the name it started with, no pass warns or leaves a buffer, and the loop ends. -/
theorem walk_on_rails (L : RawLayer) (base : ℕ) (d : LookupData) (hd : d.name.Stored)
    (habs : d.name.name.head? = some slash) (hok : redirectOk d.name.name = true) :
    (∀ k w, afterPasses L k (startWalk base d) = some w →
      slash :: w.rest = skip k d.name.name ∧ layerPass L w ≠ .warn ∧ layerPass L w ≠ .oops) ∧
    ∃ r, ∀ fuel, d.name.len ≤ fuel → ovlLookupLayer L fuel base d = .ret r := by
  obtain ⟨cs, hne, hcs, hname⟩ | hno := redirectOk_iff.mp hok
  · obtain ⟨c, cs, rfl⟩ := List.exists_cons_of_ne_nil hne
    have hslash : ∀ x ∈ c :: cs, slash ∉ x := fun x hx => (hcs x hx).no_slash
    have hstart : OnRails (startWalk base d) (c ++ path cs) := startWalk_onRails hd hname
    refine ⟨?_, ?_⟩
    · intro k w hw
      obtain ⟨c', cs', hdrop, hon⟩ := afterPasses_onRails hstart hslash hw
      have hc' : slash ∉ c' := by
        apply hslash
        exact List.mem_of_mem_drop (hdrop ▸ List.mem_cons_self)
      refine ⟨?_, ?_⟩
      · rw [hon.rest_eq, hname, skip_path hslash, hdrop, path_cons]
      · obtain ⟨d', ret, hpass⟩ | ⟨e, hpass⟩ | ⟨c₁, cs₁, w₁, -, hpass, -⟩ :=
          layerPass_onRails (L := L) hon hc'
        · rw [hpass]
          exact ⟨nofun, nofun⟩
        · rw [hpass]
          exact ⟨nofun, nofun⟩
        · rw [hpass]
          exact ⟨nofun, nofun⟩
    · obtain ⟨r, hr⟩ := layerLoop_ends (L := L) hstart hslash
      refine ⟨r, fun fuel hfuel => ?_⟩
      have hlen := length_le_path (c :: cs)
      rw [List.length_cons, ← hname, ← hd.len_eq] at hlen
      rw [ovlLookupLayer, if_neg (not_not_intro habs)]
      exact hr fuel (by omega)
  · exact absurd (List.mem_of_head? habs) hno

/-- The directory `/a` has the redirect `/x/y`. -/
def redirectedLayer : RawLayer where
  inode i :=
    { kind := .dir, isOpaque := false, metacopy := .ok false, weird := false, trap := false
      redirect := if i = 1 then .ok ⟨path [[120], [121]], by decide⟩ else .error ENODATA
      mem := ⟨fun n => decide (n ≤ KMALLOC_MAX_SIZE), fun _ h => of_decide_eq_true h⟩ }
  lookup i name := .ok (if i = 0 ∧ name = [97] then some 1 else none)

/-- The lookup of `/a/c`. -/
def lookupAC : LookupData where
  name := ⟨path [[97], [99]], 4⟩
  isDir := true
  isOpaque := false
  stop := false
  last := false
  redirect := none
  metacopy := false

theorem walk_on_rails_redirected :
    redirectOk lookupAC.name.name = true ∧
      (∀ k w, afterPasses redirectedLayer k (startWalk 0 lookupAC) = some w →
        slash :: w.rest = skip k lookupAC.name.name ∧ layerPass redirectedLayer w ≠ .warn ∧
          layerPass redirectedLayer w ≠ .oops) ∧
      ∃ r, ∀ fuel, 4 ≤ fuel → ovlLookupLayer redirectedLayer fuel 0 lookupAC = .ret r := by
  have hstored : lookupAC.name.Stored := ⟨rfl, by decide, by decide⟩
  have hok : redirectOk lookupAC.name.name = true := by
    refine redirectOk_iff.mpr (.inl ⟨[[97], [99]], by decide, ?_, rfl⟩)
    intro c hc
    simp only [List.mem_cons, List.not_mem_nil, or_false] at hc
    obtain rfl | rfl := hc
    · exact ⟨by decide, by decide⟩
    · exact ⟨by decide, by decide⟩
  exact ⟨hok, walk_on_rails redirectedLayer 0 lookupAC hstored rfl hok⟩

end Walk

end FzzOverlay.Walk
