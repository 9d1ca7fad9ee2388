import FzzOverlay.Namei.Walk

/-!
# From bytes to components

`ovl_lookup_layer` on strings and buffers does what it does on components: the attributes
of a layer are parsed once, and a name stands for its components. The only difference is
that an allocation may fail.

## Main definitions

- `parsedLayers` — the layers with parsed attributes
- `Walk.LookupData.Shows` — the lookup data in both forms
- `Walk.RawLayer.NoMemory` — no memory for a redirect of the layer, with room around it

## Main results

- `Walk.ovlLookupLayer_refines` — a lookup in a layer, in both forms
-/

namespace FzzOverlay

open CString SlashPath

/-- The string of a redirect. -/
def Redirect.text : Redirect → List UInt8
  | .rel name => name
  | .abs cs => path cs

/-- The redirect that a string stands for. -/
def parseRedirect (s : List UInt8) : Redirect :=
  if s.head? = some slash then .abs (components s) else .rel s

/-- The components have no slash in them, and a path has a component. -/
def Redirect.Plain : Redirect → Prop
  | .rel name => slash ∉ name
  | .abs cs => cs ≠ [] ∧ ∀ c ∈ cs, slash ∉ c

/-- The redirect of an inode, from what `vfs_getxattr` finds. -/
def parsedRedirect (value : Except Errno XattrValue) : Except Errno (Option Redirect) :=
  match value with
  | .error e =>
    if e.ret = ENODATA.ret ∨ e.ret = EOPNOTSUPP.ret then .ok none else .error e
  | .ok v =>
    if v.bytes.length = 0 then .error EINVAL
    else if redirectOk (str v.bytes) then .ok (some (parseRedirect (str v.bytes)))
    else .error EINVAL

def Walk.RawInode.parsed (n : Walk.RawInode) : LayerInode where
  kind := n.kind
  isOpaque := n.isOpaque
  redirect := parsedRedirect n.redirect
  metacopy := n.metacopy
  weird := n.weird
  trap := n.trap

/-- The layers with parsed attributes. -/
def parsedLayers (L : ℕ → Walk.RawLayer) : Layers where
  inode layer i := ((L layer).inode i).parsed
  lookup layer := (L layer).lookup

section Text

variable {s : List UInt8} {r : Redirect}

theorem Redirect.Plain.head?_text (h : r.Plain) : r.text.head? = some slash ↔ r.isAbs = true := by
  cases r with
  | rel name =>
    refine iff_of_false (fun hs => h (List.mem_of_head? hs)) Bool.false_ne_true
  | abs cs =>
    obtain ⟨c, cs, rfl⟩ := List.exists_cons_of_ne_nil h.1
    exact iff_of_true rfl rfl

/-- Parsing gives back the redirect. -/
theorem parseRedirect_text (h : r.Plain) : parseRedirect r.text = r := by
  rw [parseRedirect]
  cases r with
  | rel name => rw [if_neg (mt h.head?_text.mp Bool.false_ne_true), Redirect.text]
  | abs cs => rw [if_pos (h.head?_text.mpr rfl), Redirect.text, components_path h.1 h.2]

/-- What `ovl_get_redirect_xattr` accepts is the string of a redirect. -/
theorem exists_text (h : redirectOk s = true) : ∃ r : Redirect, r.Plain ∧ r.text = s := by
  obtain ⟨cs, hne, hcs, rfl⟩ | hno := redirectOk_iff.mp h
  · exact ⟨.abs cs, ⟨hne, fun c hc => (hcs c hc).no_slash⟩, rfl⟩
  · exact ⟨.rel s, hno, rfl⟩

theorem text_parseRedirect (h : redirectOk s = true) :
    (parseRedirect s).text = s ∧ (parseRedirect s).Plain := by
  obtain ⟨r, hplain, rfl⟩ := exists_text h
  rw [parseRedirect_text hplain]
  exact ⟨rfl, hplain⟩

end Text

/-- There is no memory to read the redirect of an inode into, with room for at most `len`
bytes around it. -/
def Walk.RawInode.NoMemory (n : Walk.RawInode) (len : ℕ) : Prop :=
  ∃ v padding, n.redirect = .ok v ∧ padding ≤ len ∧
    n.mem.succeeds (v.bytes.length + (padding + 1)) = false

def Walk.RawLayer.NoMemory (L : Walk.RawLayer) (len : ℕ) : Prop := ∃ i, (L.inode i).NoMemory len

/-- The redirects in a layer have at most `n` bytes. -/
def Walk.RawLayer.RedirectsShort (L : Walk.RawLayer) (n : ℕ) : Prop :=
  ∀ i v, (L.inode i).redirect = .ok v → v.bytes.length ≤ n

/-- The string of a redirect is parsed as that redirect. -/
theorem parsedRedirect_text {v : XattrValue} {r : Redirect} (hr : r.Plain) (hne : r.text ≠ [])
    (h0 : 0 ∉ r.text) (hok : redirectOk r.text = true) (h : v.bytes = r.text) :
    parsedRedirect (.ok v) = .ok (some r) := by
  have hstr : str r.text = r.text := by
    rw [str, List.takeWhile_eq_self_iff]
    intro c hc
    simpa using fun hzero : c = 0 => h0 (hzero ▸ hc)
  have hlen : r.text.length ≠ 0 := mt List.length_eq_zero_iff.mp hne
  simp only [parsedRedirect, h, hstr, if_neg hlen, if_pos hok, parseRedirect_text hr]

theorem parsedRedirect_some {value : Except Errno XattrValue} {r : Redirect}
    (h : parsedRedirect value = .ok (some r)) :
    r.Plain ∧ ∃ v, value = .ok v ∧ r.text = str v.bytes := by
  unfold parsedRedirect at h
  split at h
  · split at h
    · cases h
    · cases h
  next v =>
  split at h
  · cases h
  split at h
  · next hok =>
    obtain rfl := Option.some.inj (Except.ok.inj h)
    obtain ⟨htext, hplain⟩ := text_parseRedirect hok
    exact ⟨hplain, v, rfl, htext⟩
  · cases h

/-- Reading the attribute gives what was parsed, unless there is no memory. -/
theorem ovlGetRedirectXattr_parsed (mem : Kmalloc) (value : Except Errno XattrValue)
    {padding : ℕ} (hp : padding + 1 < 2 ^ 31) :
    (ovlGetRedirectXattr mem value padding = .ret (.error ENOMEM) ∧
        ∃ v, value = .ok v ∧ mem.succeeds (v.bytes.length + (padding + 1)) = false) ∨
      match parsedRedirect value with
      | .error e => ovlGetRedirectXattr mem value padding = .ret (.error e)
      | .ok none => ovlGetRedirectXattr mem value padding = .ret (.ok none)
      | .ok (some r) => r.Plain ∧ ∃ buf n, n ≤ KMALLOC_MAX_SIZE ∧ Carries buf n r.text ∧
          r.text.length + padding < n ∧
          ovlGetRedirectXattr mem value padding = .ret (.ok (some buf)) := by
  cases value with
  | error e =>
    right
    rw [parsedRedirect]
    by_cases hnone : e.ret = ENODATA.ret ∨ e.ret = EOPNOTSUPP.ret
    · simp [ovlGetRedirectXattr, ovlGetxattr, hnone]
    · have hne : e.ret ≠ ENODATA.ret := fun h => hnone (.inl h)
      simp only [ovlGetRedirectXattr, ovlGetxattr, if_neg hnone, if_neg hne]
  | ok v =>
    rw [ovlGetRedirectXattr_ok mem v hp, parsedRedirect]
    by_cases hlen : v.bytes.length = 0
    · right
      simp only [if_pos hlen]
    simp only [if_neg hlen]
    by_cases hmem : mem.succeeds (v.bytes.length + (padding + 1)) = true
    · right
      rw [hmem]
      by_cases hok : redirectOk (str v.bytes) = true
      · obtain ⟨htext, hplain⟩ := text_parseRedirect hok
        have hv : (str v.bytes).length ≤ v.bytes.length := (List.takeWhile_sublist _).length_le
        simp only [hok, if_true, Bool.not_true, Bool.false_eq_true, if_false]
        refine ⟨hplain, _, _, mem.limit _ hmem, ?_, ?_, rfl⟩
        · rw [htext]
          exact carries_padded v.bytes padding
        · rw [htext]
          omega
      · simp only [hok, Bool.not_true, Bool.false_eq_true, if_false]
    · exact .inl ⟨by simp [hmem], v, rfl, eq_false_of_ne_true hmem⟩

namespace Walk

/-- A stored name and what it stands for. -/
structure Qstr.Names (q : Qstr) (r : Redirect) : Prop where
  stored : q.Stored
  text : q.name = r.text
  plain : r.Plain

/-- The lookup data in both forms. -/
structure LookupData.Shows (d : LookupData) (a : FzzOverlay.LookupData) : Prop where
  name : d.name.Names a.name
  isDir : d.isDir = a.isDir
  isOpaque : d.isOpaque = a.isOpaque
  stop : d.stop = a.stop
  last : d.last = a.last
  redirect : d.redirect = a.redirect.map Redirect.text
  metacopy : d.metacopy = a.metacopy

/-- The place of a component in a name: `prelen` bytes are before it, for the components
`pre`, and the components `post` are behind it. -/
inductive Place : Redirect → ℕ → Option (List (List UInt8)) → List (List UInt8) → Prop
  | whole (name : List UInt8) : Place (.rel name) 0 none []
  | within (pre : List (List UInt8)) (c : List UInt8) (post : List (List UInt8)) :
      Place (.abs (pre ++ c :: post)) ((path pre).length + 1) (some pre) post

/-- The results agree, or there was no memory. -/
def Refines (noMemory : Prop) (x : Outcome (Except Errno (LookupData × Option ℕ)))
    (y : Except Errno (FzzOverlay.LookupData × Option ℕ)) : Prop :=
  (x = .ret (.error ENOMEM) ∧ noMemory) ∨
    match y with
    | .error e => x = .ret (.error e)
    | .ok (a, this) => ∃ d : LookupData, x = .ret (.ok (d, this)) ∧ d.Shows a

section Redirect

variable {d : LookupData} {a : FzzOverlay.LookupData} {prelen : ℕ}
  {pre : Option (List (List UInt8))} {post : List (List UInt8)}

theorem Place.before {r : Redirect} (h : Place r prelen pre post) :
    prelen + (path post).length ≤ r.text.length := by
  cases h with
  | whole name => simp
  | within ps c =>
    simp only [Redirect.text, path_append, path_cons, List.length_append, List.length_cons]
    omega

theorem Place.post_suffix {r : Redirect} (h : Place r prelen pre post) :
    path post <:+ r.text := by
  cases h with
  | whole name => exact List.nil_suffix
  | within ps c =>
    rw [Redirect.text, path_append, path_cons, ← List.cons_append, ← List.append_assoc]
    exact List.suffix_append _ _

/-- What a redirect makes of the name, in bytes and in components. -/
theorem Place.text_rel {r : List UInt8} {nm : Redirect} (h : Place nm prelen pre post) :
    (nm.text.take prelen ++ r) ++ path post =
      (match pre with
        | none => Redirect.rel r
        | some ps => .abs (ps ++ r :: post)).text := by
  cases h with
  | whole name => simp [Redirect.text]
  | within ps c =>
    have htake : (path (ps ++ c :: post)).take ((path ps).length + 1) = path ps ++ [slash] := by
      rw [path_append, path_cons, List.take_append, List.take_of_length_le (by omega)]
      simp
    rw [Redirect.text, htake]
    simp [Redirect.text, path_append]

theorem head?_of_carries {buf s : List UInt8} {n : ℕ} (h : Carries buf n s) :
    buf.head? = some slash ↔ s.head? = some slash := by
  obtain ⟨rest, hrest⟩ := h.string
  rw [hrest]
  cases s with
  | nil => simp [slash]
  | cons b s => simp

theorem Place.plain {nm : Redirect} {r : List UInt8} (h : Place nm prelen pre post)
    (hnm : nm.Plain) (hr : slash ∉ r) :
    (match pre with
      | none => Redirect.rel r
      | some ps => .abs (ps ++ r :: post)).Plain := by
  cases h with
  | whole name => exact hr
  | within ps c =>
    refine ⟨by simp, fun x hx => ?_⟩
    rcases List.mem_append.mp hx with hx | hx
    · exact hnm.2 x (List.mem_append_left _ hx)
    rcases List.mem_cons.mp hx with rfl | hx
    · exact hr
    · exact hnm.2 x (List.mem_append_right _ (List.mem_cons_of_mem c hx))

theorem Place.plain_post {nm : Redirect} (h : Place nm prelen pre post) (hnm : nm.Plain) :
    ∀ x ∈ post, slash ∉ x := by
  cases h with
  | whole name => exact fun x hx => absurd hx List.not_mem_nil
  | within ps c =>
    exact fun x hx => hnm.2 x (List.mem_append_right _ (List.mem_cons_of_mem c hx))

/-- A string in a buffer that was allocated is a stored name. -/
theorem names_of_carries {b : List UInt8} {n : ℕ} {r : Redirect} (h : Carries b n r.text)
    (hn : n ≤ KMALLOC_MAX_SIZE) (hr : r.Plain) :
    (⟨str b, (str b).length % 2 ^ 32⟩ : Qstr).Names r := by
  have hlt : r.text.length < KMALLOC_MAX_SIZE := Nat.lt_of_lt_of_le h.length_lt hn
  have hmax : KMALLOC_MAX_SIZE = 4194304 := rfl
  rw [h.str_eq]
  exact ⟨⟨Nat.mod_eq_of_lt (by omega), h.nonzero, hlt⟩, rfl, hr⟩

/-- `ovl_check_redirect` builds the string of the new name. -/
theorem ovlCheckRedirect_refines (n : RawInode) (h : d.Shows a)
    (hplace : Place a.name prelen pre post) :
    (ovlCheckRedirect n d prelen (path post) = .ret (.error ENOMEM) ∧
        n.NoMemory a.name.text.length) ∨
      match FzzOverlay.ovlCheckRedirect n.parsed a pre post with
      | .error e => ovlCheckRedirect n d prelen (path post) = .ret (.error e)
      | .ok a' => ∃ d' : LookupData,
          ovlCheckRedirect n d prelen (path post) = .ret (.ok d') ∧ d'.Shows a' := by
  have hroom := hplace.before
  have hshort := h.name.stored.short
  have hzero := h.name.stored.nonzero
  have hmax : KMALLOC_MAX_SIZE = 4194304 := rfl
  rw [h.name.text] at hshort hzero
  have hpad : prelen + (path post).length + 1 < 2 ^ 31 := by omega
  have hpost : 0 ∉ path post := fun h0 => hzero (hplace.post_suffix.subset h0)
  rw [ovlCheckRedirect, toInt_of_lt (by omega)]
  obtain ⟨hmem, v, hv, hfail⟩ | hread := ovlGetRedirectXattr_parsed n.mem n.redirect hpad
  · exact .inl ⟨by rw [hmem], v, _, hv, hroom, hfail⟩
  right
  rw [FzzOverlay.ovlCheckRedirect, show n.parsed.redirect = parsedRedirect n.redirect from rfl]
  cases hr : parsedRedirect n.redirect with
  | error e =>
    rw [hr] at hread
    simp only at hread
    simp only [hread]
  | ok r =>
    rw [hr] at hread
    cases r with
    | none =>
      simp only at hread
      simp only [hread]
      exact ⟨d, rfl, h⟩
    | some r =>
      obtain ⟨hplain, buf, sz, hlimit, hcarries, hfit, hbuf⟩ := hread
      obtain ⟨b, hb, hnew⟩ := fillRedirect_fits hcarries hzero hpost (by omega) hfit
      rw [← h.name.text] at hb
      simp only [hbuf, hb]
      have hhead := (head?_of_carries hcarries).trans hplain.head?_text
      cases r with
      | rel r =>
        have hrel : ¬ buf.head? = some slash := mt hhead.mp Bool.false_ne_true
        rw [if_neg hrel, Redirect.text, hplace.text_rel] at hnew
        have hnames := names_of_carries hnew hlimit (hplace.plain h.name.plain hplain)
        refine ⟨_, rfl, hnames, h.isDir, h.isOpaque, ?_, h.last, ?_, h.metacopy⟩
        · rw [if_neg hrel]
          exact h.stop
        · exact congrArg some hnew.str_eq
      | abs cs =>
        have habs : buf.head? = some slash := hhead.mpr rfl
        rw [if_pos habs, Redirect.text, ← path_append] at hnew
        have hcs : (Redirect.abs (cs ++ post)).Plain := by
          refine ⟨by simp [hplain.1], fun x hx => ?_⟩
          rcases List.mem_append.mp hx with hx | hx
          · exact hplain.2 x hx
          · exact hplace.plain_post h.name.plain x hx
        have hnames := names_of_carries (r := .abs (cs ++ post)) hnew hlimit hcs
        refine ⟨_, rfl, hnames, h.isDir, h.isOpaque, ?_, h.last, ?_, h.metacopy⟩
        · rw [if_pos habs]
        · exact congrArg some hnew.str_eq

end Redirect

section Single

variable {L : ℕ → RawLayer} {layer : ℕ} {d : LookupData} {a : FzzOverlay.LookupData} {prelen : ℕ}
  {pre : Option (List (List UInt8))} {post : List (List UInt8)} {noMemory noMemory' : Prop}

theorem refines_error (e : Errno) : Refines noMemory (.ret (.error e)) (.error e) := .inr rfl

theorem refines_ok {this : Option ℕ} (h : d.Shows a) :
    Refines noMemory (.ret (.ok (d, this))) (.ok (a, this)) :=
  .inr ⟨d, rfl, h⟩

theorem Refines.mono {x : Outcome (Except Errno (LookupData × Option ℕ))}
    {y : Except Errno (FzzOverlay.LookupData × Option ℕ)} (h : Refines noMemory x y)
    (himp : noMemory → noMemory') : Refines noMemory' x y :=
  h.imp_left (And.imp_right himp)

theorem RawLayer.NoMemory.mono {l : RawLayer} {len len' : ℕ} (h : l.NoMemory len)
    (hle : len ≤ len') : l.NoMemory len' := by
  obtain ⟨i, v, padding, hv, hpad, hfail⟩ := h
  exact ⟨i, v, padding, hv, hpad.trans hle, hfail⟩

theorem withRedirect_refines (this : ℕ) (h : d.Shows a) (hplace : Place a.name prelen pre post) :
    Refines ((L layer).NoMemory a.name.text.length)
      (withRedirect (L layer) this d prelen (path post))
      ((FzzOverlay.ovlCheckRedirect ((parsedLayers L).inode layer this) a pre post).map
        (·, some this)) := by
  rw [withRedirect, show (parsedLayers L).inode layer this = ((L layer).inode this).parsed from rfl]
  obtain ⟨hmem, hno⟩ | hcheck := ovlCheckRedirect_refines ((L layer).inode this) h hplace
  · exact .inl ⟨by rw [hmem], this, hno⟩
  cases hr : FzzOverlay.ovlCheckRedirect ((L layer).inode this).parsed a pre post with
  | error e =>
    rw [hr] at hcheck
    simp only at hcheck
    rw [hcheck]
    exact refines_error e
  | ok a' =>
    rw [hr] at hcheck
    obtain ⟨d', hd', hshows⟩ := hcheck
    rw [hd']
    exact refines_ok hshows

theorem Refines.ite {b : Prop} [Decidable b]
    {x x' : Outcome (Except Errno (LookupData × Option ℕ))}
    {y y' : Except Errno (FzzOverlay.LookupData × Option ℕ)} (h : Refines noMemory x y)
    (h' : Refines noMemory x' y') :
    Refines noMemory (if b then x else x') (if b then y else y') := by
  split
  · exact h
  · exact h'

/-- `ovl_lookup_single`, in both forms. -/
theorem ovlLookupSingle_refines (L : ℕ → RawLayer) (layer base : ℕ) (name : List UInt8)
    (h : d.Shows a) (hplace : Place a.name prelen pre post) :
    Refines ((L layer).NoMemory a.name.text.length)
      (ovlLookupSingle (L layer) base d name prelen (path post))
      (FzzOverlay.ovlLookupSingle (parsedLayers L) layer base a name pre post) := by
  have hlast : (path post).isEmpty = post.isEmpty := by
    cases post with
    | nil => rfl
    | cons c cs => rfl
  obtain ⟨dname, isDir, isOpaque, stop, last, dredirect, metacopy⟩ := d
  obtain ⟨aname, _, _, _, _, redirect, _⟩ := a
  obtain ⟨hname, ⟨⟩, ⟨⟩, ⟨⟩, ⟨⟩, hred, ⟨⟩⟩ := h
  have hshows : ∀ isDir isOpaque stop metacopy, LookupData.Shows
      ⟨dname, isDir, isOpaque, stop, last, dredirect, metacopy⟩
      ⟨aname, isDir, isOpaque, stop, last, redirect, metacopy⟩ :=
    fun _ _ _ _ => ⟨hname, rfl, rfl, rfl, rfl, hred, rfl⟩
  unfold ovlLookupSingle FzzOverlay.ovlLookupSingle
  rw [hlast, show (parsedLayers L).lookup layer base name = (L layer).lookup base name from rfl]
  cases (L layer).lookup base name with
  | error e => exact .ite (refines_ok (hshows _ _ _ _)) (refines_error e)
  | ok this =>
    cases this with
    | none => exact refines_ok (hshows _ _ _ _)
    | some this =>
      refine .ite (refines_error _) (.ite (refines_ok (hshows _ _ _ _)) ?_)
      refine .ite (refines_ok (hshows _ _ _ _)) (.ite ?_ ?_)
      · -- Not a directory.
        refine .ite (refines_ok (hshows _ _ _ _)) ?_
        have hmeta : FzzOverlay.ovlCheckMetacopyXattr ((parsedLayers L).inode layer this) =
          ovlCheckMetacopyXattr ((L layer).inode this) := rfl
        rw [hmeta]
        cases ovlCheckMetacopyXattr ((L layer).inode this) with
        | error e => exact refines_error e
        | ok mc =>
          refine .ite (refines_ok (hshows _ _ _ _)) ?_
          exact withRedirect_refines this (hshows _ _ _ _) hplace
      · refine .ite (refines_error _) (.ite (refines_ok (hshows _ _ _ _)) ?_)
        refine .ite (refines_ok (hshows _ _ _ _)) ?_
        exact withRedirect_refines this (hshows _ _ _ _) hplace

end Single

section Layer

variable {L : ℕ → RawLayer} {layer fuel base n : ℕ} {w : LayerWalk} {a : FzzOverlay.LookupData}
  {c : List UInt8} {cs pre : List (List UInt8)}

theorem RawLayer.RedirectsShort.text (h : (L layer).RedirectsShort n) {i : ℕ} {r : Redirect}
    (hr : ((parsedLayers L).inode layer i).redirect = .ok (some r)) : r.text.length ≤ n := by
  change parsedRedirect ((L layer).inode i).redirect = .ok (some r) at hr
  obtain ⟨-, v, hv, htext⟩ := parsedRedirect_some hr
  rw [htext]
  exact (List.takeWhile_sublist _).length_le.trans (h i v hv)

/-- Whatever is found under a component, the path still ends with those behind it, and has
grown by one redirect at most. -/
theorem name_of_ovlLookupSingle {a' : FzzOverlay.LookupData} {res : Option ℕ}
    (hshort : (L layer).RedirectsShort n) (hname : a.name = .abs (pre ++ c :: cs))
    (h : FzzOverlay.ovlLookupSingle (parsedLayers L) layer base a c (some pre) cs =
      .ok (a', res)) :
    ∃ pre', a'.name = .abs (pre' ++ cs) ∧ a'.name.text.length ≤ a.name.text.length + n := by
  have hsame : a.name = .abs ((pre ++ [c]) ++ cs) := by
    rw [hname, List.append_assoc, List.singleton_append]
  have hkeep : ∀ {d : FzzOverlay.LookupData}, d.name = a.name →
      ∃ pre', d.name = .abs (pre' ++ cs) ∧ d.name.text.length ≤ a.name.text.length + n := by
    intro d hd
    exact ⟨_, hd.trans hsame, by rw [hd]; exact Nat.le_add_right _ _⟩
  have hcheck : ∀ {i : ℕ} {d d' : FzzOverlay.LookupData},
      FzzOverlay.ovlCheckRedirect ((parsedLayers L).inode layer i) d (some pre) cs = .ok d' →
      d.name = a.name →
      ∃ pre', d'.name = .abs (pre' ++ cs) ∧ d'.name.text.length ≤ a.name.text.length + n := by
    intro i d d' hcheck hd
    unfold FzzOverlay.ovlCheckRedirect at hcheck
    split at hcheck
    · cases hcheck
    · cases hcheck
      exact hkeep hd
    · next r hr =>
      cases hcheck
      refine ⟨_, rfl, ?_⟩
      have hlen := hshort.text hr
      simp only [Redirect.text] at hlen
      simp only [hname, Redirect.text, path_append, path_cons, List.length_append,
        List.length_cons]
      omega
    · next r hr =>
      cases hcheck
      refine ⟨pre ++ [r], by simp, ?_⟩
      have hlen := hshort.text hr
      simp only [Redirect.text] at hlen
      simp only [hname, Redirect.text, path_append, path_cons, List.length_append,
        List.length_cons]
      omega
  cases FzzOverlay.ovlLookupSingle_cases _ h with
  | absent => exact hkeep rfl
  | whiteout => exact hkeep rfl
  | blocked => exact hkeep rfl
  | file i mc d' _ _ _ _ _ _ _ hd =>
    obtain ⟨rfl, -⟩ | ⟨-, -, hd⟩ := hd
    · exact hkeep rfl
    · exact hcheck hd rfl
  | dir i d' _ _ _ hd =>
    obtain ⟨-, rfl⟩ | ⟨-, -, rfl⟩ | ⟨-, -, hd⟩ := hd
    · exact hkeep rfl
    · exact hkeep rfl
    · exact hcheck hd rfl

theorem LookupData.Shows.ends {d : LookupData} (h : d.Shows a) (hname : a.name = .abs (pre ++ cs)) :
    d.name.Ends (path cs) := by
  refine ⟨h.name.stored, path pre, ?_⟩
  rw [h.name.text, hname, Redirect.text, path_append]

/-- A walk that is over at its next pass. -/
theorem layerLoop_over {d : LookupData} {this : Option ℕ} {rem : ℕ} (hfuel : 0 < fuel)
    (hthis : ∀ i, this = some i → ((L layer).inode i).kind ≠ .dir) :
    layerLoop (L layer) fuel ⟨this, d, rem, this⟩ = .ret (.ok (d, this)) := by
  apply layerLoop_of_done hfuel
  cases this with
  | none => rfl
  | some i => simp only [layerPass, if_pos (hthis i rfl)]

theorem LookupData.Shows.onRails (h : w.d.Shows a) (hname : a.name = .abs (pre ++ c :: cs))
    (hrem : w.rem = (c ++ path cs).length) : OnRails w (c ++ path cs) := by
  refine ⟨?_, hrem⟩
  rw [← path_cons]
  exact h.ends hname

/-- One pass looks one component up. -/
theorem layerPass_refines (hshort : (L layer).RedirectsShort n) (hshows : w.d.Shows a)
    (hname : a.name = .abs (pre ++ c :: cs))
    (hrem : w.rem = (c ++ path cs).length) (hbase : w.base = some base)
    (hdir : ((L layer).inode base).kind = .dir) :
    (layerPass (L layer) w = .fail ENOMEM ∧ (L layer).NoMemory a.name.text.length) ∨
      match FzzOverlay.ovlLookupSingle (parsedLayers L) layer base a c (some pre) cs with
      | .error e => layerPass (L layer) w = .fail e
      | .ok (a', this) => ∃ d : LookupData, d.Shows a' ∧ layerPass (L layer) w =
          if cs = [] then .done d this
          else .next ⟨this, d, usub64 w.rem (c.length + 1), this⟩ := by
  have hon := hshows.onRails hname hrem
  have hplain := hshows.name.plain
  rw [hname] at hplain
  have hc : slash ∉ c := hplain.2 c (List.mem_append_right _ List.mem_cons_self)
  obtain ⟨p, hp, heq⟩ := hon.pass_eq hc hbase hdir
  have hpre : p = path pre := by
    rw [hshows.name.text, hname, Redirect.text, path_append, path_cons] at hp
    exact (List.append_cancel_right hp).symm
  have hplace : Place a.name (p.length + 1) (some pre) cs := by
    rw [hname, hpre]
    exact .within pre c cs
  rw [heq]
  obtain ⟨hmem, hno⟩ | hsingle := ovlLookupSingle_refines L layer base c hshows hplace
  · exact .inl ⟨by rw [hmem], hno⟩
  right
  cases hres : FzzOverlay.ovlLookupSingle (parsedLayers L) layer base a c (some pre) cs with
  | error e =>
    rw [hres] at hsingle
    simp only at hsingle
    rw [hsingle]
  | ok r =>
    obtain ⟨a', this⟩ := r
    rw [hres] at hsingle
    obtain ⟨d, hd, hd'⟩ := hsingle
    rw [hd]
    refine ⟨d, hd', ?_⟩
    cases cs with
    | nil => rfl
    | cons c' cs =>
      obtain ⟨pre', hname', -⟩ := name_of_ovlLookupSingle hshort hname hres
      simp only [path_cons, reduceCtorEq, if_false, if_neg (hon.rem_lt (hd'.ends hname'))]

/-- The loop with its first pass done: what is left is the walk below a directory that was
found. -/
theorem layerLoop_step (hshort : (L layer).RedirectsShort n) (hshows : w.d.Shows a)
    (hname : a.name = .abs (pre ++ c :: cs))
    (hrem : w.rem = (c ++ path cs).length) (hbase : w.base = some base)
    (hdir : ((L layer).inode base).kind = .dir) (hfuel : cs ≠ [] → 0 < fuel)
    (hrest : ∀ d a' this, d.Shows a' → (∃ pre', a'.name = .abs (pre' ++ cs) ∧
        a'.name.text.length ≤ a.name.text.length + n) → cs ≠ [] →
      ((L layer).inode this).kind = .dir →
      Refines ((L layer).NoMemory (a.name.text.length + cs.length * n))
        (layerLoop (L layer) fuel ⟨some this, d, usub64 w.rem (c.length + 1), some this⟩)
        (lookupPath (parsedLayers L) layer cs this a')) :
    Refines ((L layer).NoMemory (a.name.text.length + cs.length * n))
      (layerLoop (L layer) (fuel + 1) w)
      (lookupPath (parsedLayers L) layer (c :: cs) base a) := by
  have hbefore : a.before (cs.length + 1) = pre := by
    simp [FzzOverlay.LookupData.before, hname]
  rw [lookupPath, hbefore]
  obtain ⟨hmem, hno⟩ | hpass := layerPass_refines hshort hshows hname hrem hbase hdir
  · exact .inl ⟨layerLoop_of_fail (by omega) hmem, hno.mono (Nat.le_add_right _ _)⟩
  cases hres : FzzOverlay.ovlLookupSingle (parsedLayers L) layer base a c (some pre) cs with
  | error e =>
    rw [hres] at hpass
    rw [layerLoop_of_fail (by omega) hpass]
    exact refines_error e
  | ok r =>
    obtain ⟨a', this⟩ := r
    rw [hres] at hpass
    obtain ⟨d, hd, hpass⟩ := hpass
    by_cases hcs : cs = []
    · rw [if_pos hcs] at hpass
      rw [layerLoop_of_done (by omega) hpass]
      cases this with
      | none => exact refines_ok hd
      | some this =>
        simp only [hcs, true_or, if_true]
        exact refines_ok hd
    rw [if_neg hcs] at hpass
    rw [layerLoop_of_next fuel hpass]
    cases this with
    | none =>
      have hnone : ∀ i, (none : Option ℕ) = some i → ((L layer).inode i).kind ≠ .dir := nofun
      rw [layerLoop_over (hfuel hcs) hnone]
      exact refines_ok hd
    | some this =>
      by_cases hkind : ((L layer).inode this).kind = .dir
      · have hgo : ¬ (cs = [] ∨ ((parsedLayers L).inode layer this).kind ≠ .dir) :=
          not_or.mpr ⟨hcs, not_not_intro hkind⟩
        simp only [if_neg hgo]
        exact hrest d a' this hd (name_of_ovlLookupSingle hshort hname hres) hcs hkind
      · have hstop : cs = [] ∨ ((parsedLayers L).inode layer this).kind ≠ .dir := .inr hkind
        simp only [if_pos hstop]
        rw [layerLoop_over (hfuel hcs) fun i hi => Option.some.inj hi ▸ hkind]
        exact refines_ok hd

/-- The loop over the bytes is the loop over the components. -/
theorem layerLoop_refines (hshort : (L layer).RedirectsShort n) (hshows : w.d.Shows a)
    (hname : a.name = .abs (pre ++ c :: cs))
    (hrem : w.rem = (c ++ path cs).length) (hbase : w.base = some base)
    (hdir : ((L layer).inode base).kind = .dir) (hfuel : cs.length < fuel) :
    Refines ((L layer).NoMemory (a.name.text.length + cs.length * n))
      (layerLoop (L layer) fuel w) (lookupPath (parsedLayers L) layer (c :: cs) base a) := by
  induction cs generalizing w a base c pre fuel with
  | nil =>
    obtain ⟨fuel, rfl⟩ : ∃ k, fuel = k + 1 := ⟨fuel - 1, by omega⟩
    refine layerLoop_step hshort hshows hname hrem hbase hdir (absurd rfl) ?_
    exact fun _ _ _ _ _ hne => absurd rfl hne
  | cons c' cs ih =>
    obtain ⟨fuel, rfl⟩ : ∃ k, fuel = k + 1 := ⟨fuel - 1, by omega⟩
    rw [List.length_cons] at hfuel
    refine layerLoop_step hshort hshows hname hrem hbase hdir (fun _ => by omega) ?_
    intro d a' this hd hname' _ hkind
    obtain ⟨pre', hname', hlen⟩ := hname'
    refine (ih hd hname' (hshows.onRails hname hrem).rem_next rfl hkind (by omega)).mono ?_
    -- one component less to come, and one redirect more in the name
    intro hno
    refine hno.mono ?_
    rw [List.length_cons, Nat.succ_mul]
    omega

/-- `ovl_lookup_layer`, in both forms: on strings it does what it does on components, unless
there is no memory for one of the redirects on the way. -/
theorem ovlLookupLayer_refines (L : ℕ → RawLayer) (layer : ℕ) {d : LookupData} (h : d.Shows a)
    (hshort : (L layer).RedirectsShort n) (hdir : ((L layer).inode base).kind = .dir)
    (hfuel : d.name.len ≤ fuel) :
    Refines ((L layer).NoMemory (d.name.len + d.name.len * n))
      (ovlLookupLayer (L layer) fuel base d)
      (FzzOverlay.ovlLookupLayer (parsedLayers L) layer base a) := by
  have hlen : a.name.text.length = d.name.len := by rw [h.name.stored.len_eq, h.name.text]
  have hhead := h.name.plain.head?_text
  rw [← h.name.text] at hhead
  unfold ovlLookupLayer FzzOverlay.ovlLookupLayer
  cases hname : a.name with
  | rel name =>
    have hrel : d.name.name.head? ≠ some slash := by
      rw [ne_eq, hhead, hname]
      exact Bool.false_ne_true
    have htext : d.name.name = name := by rw [h.name.text, hname, Redirect.text]
    rw [if_pos hrel, htext]
    have hplace : Place a.name 0 none [] := by
      rw [hname]
      exact .whole name
    refine (ovlLookupSingle_refines L layer base name h hplace).mono fun hno => hno.mono ?_
    rw [hlen]
    exact Nat.le_add_right _ _
  | abs cs =>
    have habs : ¬ d.name.name.head? ≠ some slash := by
      rw [ne_eq, not_not, hhead, hname]
      rfl
    rw [if_neg habs]
    have hplain := h.name.plain
    rw [hname] at hplain
    obtain ⟨c, cs, rfl⟩ := List.exists_cons_of_ne_nil hplain.1
    have htext : d.name.name = slash :: (c ++ path cs) := by
      rw [h.name.text, hname, Redirect.text, path_cons]
    have hstart : OnRails (startWalk base d) (c ++ path cs) :=
      startWalk_onRails h.name.stored htext
    have hcomps := length_le_path (c :: cs)
    rw [path_cons, ← htext, ← h.name.stored.len_eq, List.length_cons] at hcomps
    have hname' : a.name = .abs ([] ++ c :: cs) := hname
    refine (layerLoop_refines hshort h hname' hstart.rem_eq rfl hdir (by omega)).mono ?_
    intro hno
    refine hno.mono ?_
    rw [hlen]
    exact Nat.add_le_add_left (Nat.mul_le_mul_right n (by omega)) _

/-- The lookup of `/a/c` by its components. -/
def componentsAC : FzzOverlay.LookupData where
  name := .abs [[97], [99]]
  isDir := true
  isOpaque := false
  stop := false
  last := false
  redirect := none
  metacopy := false

/-- The directory `/a` has the redirect `x`. -/
def renamedLayer : RawLayer where
  inode i :=
    { redirectedLayer.inode i with
      redirect := if i = 1 then .ok ⟨[120], by decide⟩ else .error ENODATA }
  lookup := redirectedLayer.lookup

/-- There is nothing at `/a/c`, and below it is `/x/c`. -/
theorem ovlLookupLayer_refines_renamed :
    ∃ d, ovlLookupLayer renamedLayer 4 0 lookupAC = .ret (.ok (d, none)) ∧
      d.name.name = path [[120], [99]] := by
  have hshows : lookupAC.Shows componentsAC :=
    ⟨⟨⟨rfl, by decide, by decide⟩, rfl, by decide, by decide⟩, rfl, rfl, rfl, rfl, rfl, rfl⟩
  have hshort : renamedLayer.RedirectsShort 1 := by
    intro i v hv
    by_cases hi : i = 1
    · subst hi
      obtain rfl := Except.ok.inj hv
      decide
    · simp [renamedLayer, hi] at hv
  have hrefines : Refines (renamedLayer.NoMemory (4 + 4 * 1))
      (ovlLookupLayer renamedLayer 4 0 lookupAC)
      (.ok ({ componentsAC with
        name := .abs [[120], [99]], redirect := some (.abs [[120], [99]]) }, none)) :=
    ovlLookupLayer_refines (fun _ => renamedLayer) 1 hshows hshort rfl (Nat.le_refl 4)
  obtain ⟨-, i, v, padding, hv, hpad, hfail⟩ | ⟨d, hd, hname⟩ := hrefines
  · have hlen := hshort i v hv
    have hmax : KMALLOC_MAX_SIZE = 4194304 := rfl
    have hroom : v.bytes.length + (padding + 1) ≤ KMALLOC_MAX_SIZE := by omega
    exact absurd hroom (of_decide_eq_false hfail)
  · exact ⟨d, hd, hname.name.text⟩

end Layer

end Walk

end FzzOverlay
