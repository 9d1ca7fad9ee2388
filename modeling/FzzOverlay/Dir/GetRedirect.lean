import FzzOverlay.Dir.Upper
import FzzOverlay.RedirectXattr

/-!
# Writing the redirect attribute

`ovl_get_redirect` and `ovl_set_redirect` of `dir.c`. The path is built from the end of a
buffer towards its start, with `buflen` the offset of what is there already. A dentry is
given with its ancestors, up to the one just below the root.

## Main results

- `redirectLoop_eq` — what the loop leaves in the buffer, or that it gives up
- `redirect_written_is_accepted` — the redirect that is built, its length, and that it is
  accepted when it is read
-/

namespace FzzOverlay

open CString SlashPath

/-- A redirect that `ovl_get_redirect_xattr` accepts, as a string. -/
structure RedirectStr where
  bytes : List UInt8
  ne_nil : bytes ≠ []
  nonzero : 0 ∉ bytes
  ok : redirectOk bytes = true

/-- A dentry other than the root: `d_name` and `ovl_dentry_get_redirect`. -/
structure PathDentry where
  name : List UInt8
  isName : IsComponent name
  nonzero : 0 ∉ name
  redirect : Option RedirectStr

/-- `name` in the loop of `ovl_get_redirect`. -/
def PathDentry.redirectOrName (d : PathDentry) : List UInt8 :=
  match d.redirect with
  | some r => r.bytes
  | none => d.name

def PathDentry.isAbs (d : PathDentry) : Bool := d.redirectOrName.head? = some slash

/-- Copying to an offset that is an `int`. -/
def storeInt (buf : List UInt8) (off : ℤ) (bs : List UInt8) : Option (List UInt8) :=
  if off < 0 then none else store buf off.toNat bs

/-- `buf[off]`. -/
def byteAt (buf : List UInt8) (off : ℤ) : Option UInt8 :=
  if off < 0 then none else buf[off.toNat]?

/-- The loop of `ovl_get_redirect`, with the values that `buflen` has on the way. -/
def redirectLoop : List PathDentry → List UInt8 → ℤ →
    List ℤ × Outcome (Except Errno (List UInt8 × ℤ))
  | [], buf, buflen => ([], .ret (.ok (buf, buflen)))
  | d :: up, buf, buflen =>
    let name := d.redirectOrName
    let thislen : ℤ := name.length
    if thislen + (if name.head? = some slash then 0 else 1) > buflen then
      ([], .ret (.error EXDEV))
    else
      let off := buflen - thislen
      match storeInt buf off name with
      | none => ([off], .oops)
      | some buf =>
        -- the stop rule looks at the byte that was just copied
        if byteAt buf off = some slash then ([off], .ret (.ok (buf, off)))
        else
          match storeInt buf (off - 1) [slash] with
          | none => ([off, off - 1], .oops)
          | some buf =>
            let r := redirectLoop up buf (off - 1)
            (off :: (off - 1) :: r.1, r.2)

/-- `kstrdup(&buf[off])`. -/
def kstrdupAt (mem : Bool) (buf : List UInt8) (off : ℤ) : Outcome (Except Errno (List UInt8)) :=
  if off < 0 then .oops
  else if !mem then .ret (.error ENOMEM)
  else .ret (.ok (str (buf.drop off.toNat)))

/-- `ovl_get_redirect` for `d` with the ancestors `up`: the offsets into the buffer and
what is returned. `junk` is what `kmalloc` leaves in the buffer, and `memBuf` and `memDup`
say whether the two allocations succeed. -/
def ovlGetRedirect (ovlRedirectMax : UInt16) (memBuf memDup : Bool) (junk : ℕ → UInt8)
    (d : PathDentry) (up : List PathDentry) (absRedirect : Bool) :
    List ℤ × Outcome (Except Errno (List UInt8)) :=
  let buflen : ℤ := ovlRedirectMax.toNat + 1
  if !absRedirect then
    ([], if memDup then .ret (.ok d.name) else .ret (.error ENOMEM))
  else if !memBuf then ([], .ret (.error ENOMEM))
  else
    let buf := (List.range buflen.toNat).map junk
    match storeInt buf (buflen - 1) [0] with
    | none => ([buflen - 1], .oops)
    | some buf =>
      let r := redirectLoop (d :: up) buf (buflen - 1)
      ((buflen - 1) :: r.1,
        match r.2 with
        | .running => .running
        | .oops => .oops
        | .ret (.error e) => .ret (.error e)
        | .ret (.ok (buf, off)) => kstrdupAt memDup buf off)

/-- `ovl_need_absolute_redirect`; `nlink` is the link count of the lower inode. -/
def ovlNeedAbsoluteRedirect (samedir isDir : Bool) (nlink : ℕ) : Bool :=
  if !samedir then true
  else if isDir then false
  else decide (nlink > 1)

/-- `ovl_check_setxattr`, as far as its return value goes. -/
def ovlCheckSetxattr (noxattr : Bool) (setxattr : Option Errno) (xerr : Errno) : Option Errno :=
  if noxattr then some xerr
  else
    match setxattr with
    | some e => if e.ret = EOPNOTSUPP.ret then some xerr else some e
    | none => none

/-- `ovl_set_redirect`: the error, and the value that the attribute is set to. -/
def ovlSetRedirect (ovlRedirectMax : UInt16) (memBuf memDup : Bool) (junk : ℕ → UInt8)
    (noxattr : Bool) (setxattr : Option Errno) (d : PathDentry) (up : List PathDentry)
    (samedir isDir : Bool) (nlink : ℕ) : Outcome (Option Errno × Option (List UInt8)) :=
  let absolute := ovlNeedAbsoluteRedirect samedir isDir nlink
  if d.redirect.isSome ∧ (absolute = false ∨ d.isAbs) then .ret (none, none)
  else
    match (ovlGetRedirect ovlRedirectMax memBuf memDup junk d up absolute).2 with
    | .running => .running
    | .oops => .oops
    | .ret (.error e) => .ret (some e, none)
    | .ret (.ok redirect) =>
      match ovlCheckSetxattr noxattr setxattr EXDEV with
      | none => .ret (none, some redirect)
      | some _ => .ret (some EXDEV, none)

/-- The path from the nearest dentry with an absolute redirect, or from just below the
root, down to the first dentry. -/
def writtenPath (chain : List PathDentry) : List UInt8 :=
  let below := chain.takeWhile (!·.isAbs)
  let top := (chain.dropWhile (!·.isAbs)).head?
  (top.map PathDentry.redirectOrName).getD [] ++
    path (below.reverse.map PathDentry.redirectOrName)

section Path

variable {d : PathDentry} {up chain : List PathDentry}

theorem writtenPath_cons_abs (h : d.isAbs = true) :
    writtenPath (d :: up) = d.redirectOrName := by
  simp [writtenPath, h]

theorem writtenPath_cons_rel (h : d.isAbs = false) :
    writtenPath (d :: up) = writtenPath up ++ slash :: d.redirectOrName := by
  simp [writtenPath, h, path_append]

theorem redirectOrName_ne_nil (d : PathDentry) : d.redirectOrName ≠ [] := by
  rw [PathDentry.redirectOrName]
  split
  · next r _ => exact r.ne_nil
  · exact d.isName.ne_nil

theorem zero_notMem_redirectOrName (d : PathDentry) : 0 ∉ d.redirectOrName := by
  rw [PathDentry.redirectOrName]
  split
  · next r _ => exact r.nonzero
  · exact d.nonzero

theorem redirectOk_redirectOrName (d : PathDentry) : redirectOk d.redirectOrName = true := by
  rw [PathDentry.redirectOrName]
  split
  · next r _ => exact r.ok
  · exact redirectOk_iff.mpr (.inr d.isName.no_slash)

/-- A redirect that is not absolute is a single component. -/
theorem isComponent_of_rel (h : d.isAbs = false) : IsComponent d.redirectOrName := by
  refine ⟨redirectOrName_ne_nil d, ?_⟩
  obtain ⟨cs, hne, -, hpath⟩ | hno := redirectOk_iff.mp (redirectOk_redirectOrName d)
  · cases cs with
    | nil => exact absurd rfl hne
    | cons c cs =>
      rw [PathDentry.isAbs, hpath] at h
      simp at h
  · exact hno

theorem exists_path_of_abs (h : d.isAbs = true) :
    ∃ cs, cs ≠ [] ∧ (∀ c ∈ cs, IsComponent c) ∧ d.redirectOrName = path cs := by
  obtain hpath | hno := redirectOk_iff.mp (redirectOk_redirectOrName d)
  · exact hpath
  · rw [PathDentry.isAbs, decide_eq_true_eq] at h
    exact absurd (List.mem_of_head? h) hno

/-- The path is a path of nonempty names. -/
theorem exists_writtenPath (chain : List PathDentry) :
    ∃ cs, (chain ≠ [] → cs ≠ []) ∧ (∀ c ∈ cs, IsComponent c) ∧ writtenPath chain = path cs := by
  induction chain with
  | nil => exact ⟨[], fun h => absurd rfl h, by simp, rfl⟩
  | cons d up ih =>
    cases hd : d.isAbs with
    | true =>
      obtain ⟨cs, hne, hcs, hpath⟩ := exists_path_of_abs hd
      exact ⟨cs, fun _ => hne, hcs, (writtenPath_cons_abs hd).trans hpath⟩
    | false =>
      obtain ⟨cs, -, hcs, hpath⟩ := ih
      refine ⟨cs ++ [d.redirectOrName], by simp, ?_, ?_⟩
      · intro c hc
        rw [List.mem_append, List.mem_singleton] at hc
        obtain hc | rfl := hc
        · exact hcs c hc
        · exact isComponent_of_rel hd
      · rw [writtenPath_cons_rel hd, hpath, path_append]
        simp

theorem zero_notMem_writtenPath (chain : List PathDentry) : 0 ∉ writtenPath chain := by
  induction chain with
  | nil => simp [writtenPath]
  | cons d up ih =>
    cases hd : d.isAbs with
    | true =>
      rw [writtenPath_cons_abs hd]
      exact zero_notMem_redirectOrName d
    | false =>
      have hslash : (0 : UInt8) ≠ slash := by decide
      rw [writtenPath_cons_rel hd, List.mem_append, List.mem_cons]
      rintro (h | h | h)
      · exact ih h
      · exact hslash h
      · exact zero_notMem_redirectOrName d h

theorem redirectOk_writtenPath (d : PathDentry) (up : List PathDentry) :
    redirectOk (writtenPath (d :: up)) = true ∧ writtenPath (d :: up) ≠ [] := by
  obtain ⟨cs, hne, hcs, hpath⟩ := exists_writtenPath (d :: up)
  have hcs0 : cs ≠ [] := hne (by simp)
  refine ⟨redirectOk_iff.mpr (.inl ⟨cs, hcs0, hcs, hpath⟩), ?_⟩
  rw [hpath]
  cases cs with
  | nil => exact absurd rfl hcs0
  | cons c cs => simp

end Path

section Loop

variable {buf rest : List UInt8} {n : ℕ} {d : PathDentry} {up : List PathDentry}

theorem storeInt_fits (buf : List UInt8) (off : ℕ) (bs : List UInt8)
    (hfits : off + bs.length ≤ buf.length) :
    ∃ buf', storeInt buf off bs = some buf' ∧ buf'.length = buf.length ∧
      buf'.drop off = bs ++ buf.drop (off + bs.length) := by
  have hstore : store buf off bs =
      some (buf.take off ++ bs ++ buf.drop (off + bs.length)) := if_pos hfits
  refine ⟨_, ?_, length_store hstore, drop_store hstore⟩
  rw [storeInt, if_neg (by omega), Int.toNat_natCast, hstore]

theorem byteAt_of_drop {off : ℕ} (h : buf.drop off = rest) : byteAt buf off = rest.head? := by
  rw [byteAt, if_neg (by omega), Int.toNat_natCast, ← h, List.head?_drop]

/-- The room that the name of a dentry takes in the buffer. -/
def PathDentry.room (d : PathDentry) : ℕ := d.redirectOrName.length + if d.isAbs then 0 else 1

theorem room_abs (hd : d.isAbs = true) : d.room = d.redirectOrName.length := by
  simp [PathDentry.room, hd]

theorem room_rel (hd : d.isAbs = false) : d.room = d.redirectOrName.length + 1 := by
  simp [PathDentry.room, hd]

/-- The check of the loop compares the room with what is left. -/
theorem room_eq (d : PathDentry) :
    (d.redirectOrName.length : ℤ) + (if d.redirectOrName.head? = some slash then 0 else 1) =
      d.room := by
  simp only [PathDentry.room, PathDentry.isAbs, decide_eq_true_eq]
  split
  · omega
  · omega

theorem room_le_writtenPath (d : PathDentry) (up : List PathDentry) :
    d.room ≤ (writtenPath (d :: up)).length := by
  cases hd : d.isAbs with
  | true => rw [room_abs hd, writtenPath_cons_abs hd]
  | false =>
    rw [room_rel hd, writtenPath_cons_rel hd, List.length_append, List.length_cons]
    omega

theorem redirectLoop_long (h : n < d.room) :
    redirectLoop (d :: up) buf n = ([], .ret (.error EXDEV)) := by
  rw [redirectLoop]
  simp only [room_eq]
  exact if_pos (by omega)

/-- A name that fits is copied right before what is there. -/
theorem redirectLoop_copy (up : List PathDentry) (hlen : buf.length = n + rest.length)
    (hrest : buf.drop n = rest) (h : d.room ≤ n) :
    ∃ (buf' : List UInt8) (off : ℕ), off + d.redirectOrName.length = n ∧
      buf'.length = buf.length ∧ buf'.drop off = d.redirectOrName ++ rest ∧
      redirectLoop (d :: up) buf n =
        if d.isAbs then ([(off : ℤ)], .ret (.ok (buf', (off : ℤ))))
        else
          match storeInt buf' ((off : ℤ) - 1) [slash] with
          | none => ([(off : ℤ), (off : ℤ) - 1], .oops)
          | some buf =>
            let r := redirectLoop up buf ((off : ℤ) - 1)
            ((off : ℤ) :: ((off : ℤ) - 1) :: r.1, r.2) := by
  have hle : d.redirectOrName.length ≤ n := Nat.le_trans (Nat.le_add_right _ _) h
  obtain ⟨off, hoff⟩ : ∃ off, off + d.redirectOrName.length = n :=
    ⟨n - d.redirectOrName.length, by omega⟩
  have hint : (n : ℤ) - d.redirectOrName.length = (off : ℤ) := by omega
  obtain ⟨buf', hstore, hlen', hdrop⟩ := storeInt_fits buf off d.redirectOrName (by omega)
  rw [hoff, hrest] at hdrop
  have hbyte := byteAt_of_drop hdrop
  rw [List.head?_append_of_ne_nil _ (redirectOrName_ne_nil d)] at hbyte
  refine ⟨buf', off, hoff, hlen', hdrop, ?_⟩
  have hshort : ¬ (d.room : ℤ) > n := by omega
  rw [redirectLoop]
  simp only [room_eq, if_neg hshort, hint, hstore, hbyte, PathDentry.isAbs, decide_eq_true_eq]

/-- Behind a name that is not absolute the loop goes on with the parent, and with a slash
before the name. -/
theorem redirectLoop_rel (up : List PathDentry) (hlen : buf.length = n + rest.length)
    (hrest : buf.drop n = rest) (hd : d.isAbs = false) (h : d.redirectOrName.length < n) :
    ∃ (buf' : List UInt8) (m : ℕ), m + 1 + d.redirectOrName.length = n ∧
      buf'.length = m + ([slash] ++ (d.redirectOrName ++ rest)).length ∧
      buf'.drop m = [slash] ++ (d.redirectOrName ++ rest) ∧
      redirectLoop (d :: up) buf n =
        (((m + 1 : ℕ) : ℤ) :: (m : ℤ) :: (redirectLoop up buf' m).1,
          (redirectLoop up buf' m).2) := by
  obtain ⟨buf₁, off, hoff, hlen₁, hdrop₁, heq⟩ :=
    redirectLoop_copy up hlen hrest (by rw [room_rel hd]; omega)
  obtain ⟨m, rfl⟩ : ∃ m, off = m + 1 := ⟨off - 1, by omega⟩
  have hcast : ((m + 1 : ℕ) : ℤ) - 1 = (m : ℤ) := by omega
  obtain ⟨buf₂, hstore, hlen₂, hdrop₂⟩ := storeInt_fits buf₁ m [slash]
    (by rw [List.length_singleton]; omega)
  rw [List.length_singleton, hdrop₁] at hdrop₂
  refine ⟨buf₂, m, hoff, ?_, hdrop₂, ?_⟩
  · rw [List.length_append, List.length_append, List.length_singleton]
    omega
  · rw [heq, hd, hcast, hstore]
    rfl

/-- The loop gives up when the path does not fit before `n`, and else leaves it there. -/
theorem redirectLoop_eq (chain : List PathDentry) (hlen : buf.length = n + rest.length)
    (hrest : buf.drop n = rest) :
    (∀ o ∈ (redirectLoop chain buf n).1, 0 ≤ o) ∧
      (n < (writtenPath chain).length →
        (redirectLoop chain buf n).2 = .ret (.error EXDEV)) ∧
      ((writtenPath chain).length ≤ n → ∃ (buf' : List UInt8) (off : ℕ),
        (redirectLoop chain buf n).2 = .ret (.ok (buf', off)) ∧
        buf'.drop off = writtenPath chain ++ rest) := by
  induction chain generalizing buf rest n with
  | nil =>
    refine ⟨by simp [redirectLoop], fun h => by simp [writtenPath] at h, fun _ => ⟨buf, n, ?_, ?_⟩⟩
    · simp [redirectLoop]
    · simpa [writtenPath] using hrest
  | cons d up ih =>
    by_cases hlong : n < d.room
    · rw [redirectLoop_long hlong]
      refine ⟨by simp, fun _ => rfl, fun h => absurd h ?_⟩
      have hroom := room_le_writtenPath d up
      omega
    · cases hd : d.isAbs with
      | true =>
        obtain ⟨buf', off, hoff, -, hdrop, heq⟩ :=
          redirectLoop_copy up hlen hrest (Nat.le_of_not_lt hlong)
        rw [hd, if_pos rfl] at heq
        rw [heq, writtenPath_cons_abs hd]
        exact ⟨by simp, fun h => absurd h (by omega), fun _ => ⟨buf', off, rfl, hdrop⟩⟩
      | false =>
        rw [room_rel hd] at hlong
        obtain ⟨buf', m, hm, hlen', hdrop, heq⟩ :=
          redirectLoop_rel up hlen hrest hd (by omega)
        obtain ⟨hoffs, hgive, hleave⟩ := ih hlen' hdrop
        rw [heq, writtenPath_cons_rel hd, List.length_append, List.length_cons]
        refine ⟨?_, fun h => hgive (by omega), fun h => ?_⟩
        · intro o ho
          simp only [List.mem_cons] at ho
          obtain rfl | rfl | ho := ho
          · omega
          · omega
          · exact hoffs o ho
        · obtain ⟨buf'', off, hret, hdrop''⟩ := hleave (by omega)
          refine ⟨buf'', off, hret, ?_⟩
          rw [hdrop'']
          simp

end Loop

section Written

/-- `ovl_get_redirect_xattr` returns the string of every attribute with this value, unless
there is no memory for it. -/
def AcceptedRedirect (s : List UInt8) : Prop :=
  ∀ (mem : Kmalloc) (v : XattrValue) (padding : ℕ), v.bytes = s → padding + 1 < 2 ^ 31 →
    mem.succeeds (s.length + (padding + 1)) = true →
    ∃ buf, ovlGetRedirectXattr mem (.ok v) padding = .ret (.ok (some buf)) ∧
      Carries buf (s.length + (padding + 1)) s

/-- A string that passes the check is accepted. -/
theorem acceptedRedirect {s : List UInt8} (hne : s ≠ []) (h0 : 0 ∉ s)
    (hok : redirectOk s = true) : AcceptedRedirect s := by
  rintro mem v padding rfl hp hmem
  have hstr : str v.bytes = v.bytes := by
    rw [str, List.takeWhile_eq_self_iff]
    intro c hc
    simpa using fun hzero : c = 0 => h0 (hzero ▸ hc)
  have hlen : v.bytes.length ≠ 0 := by
    rw [Ne, List.length_eq_zero_iff]
    exact hne
  have hcarries := carries_padded v.bytes padding
  rw [hstr] at hcarries
  refine ⟨_, ?_, hcarries⟩
  rw [ovlGetRedirectXattr_ok mem v hp, if_neg hlen, hmem, hstr, hok]
  rfl

/-- What `ovl_get_redirect` returns for an absolute redirect. -/
theorem ovlGetRedirect_abs (ovlRedirectMax : UInt16) (memBuf memDup : Bool)
    (junk : ℕ → UInt8) (d : PathDentry) (up : List PathDentry) :
    (∀ o ∈ (ovlGetRedirect ovlRedirectMax memBuf memDup junk d up true).1, 0 ≤ o) ∧
      ((ovlGetRedirect ovlRedirectMax memBuf memDup junk d up true).2 = .ret (.error ENOMEM) ∧
          (memBuf = false ∨ memDup = false) ∨
        (ovlGetRedirect ovlRedirectMax memBuf memDup junk d up true).2 = .ret (.error EXDEV) ∧
          ovlRedirectMax.toNat < (writtenPath (d :: up)).length ∨
        (ovlGetRedirect ovlRedirectMax memBuf memDup junk d up true).2 =
            .ret (.ok (writtenPath (d :: up))) ∧
          (writtenPath (d :: up)).length ≤ ovlRedirectMax.toNat) := by
  cases memBuf with
  | false => exact ⟨by simp [ovlGetRedirect], .inl ⟨rfl, .inl rfl⟩⟩
  | true =>
    obtain ⟨n, hn⟩ : ∃ n, ovlRedirectMax.toNat = n := ⟨_, rfl⟩
    have hcast : ((n : ℕ) : ℤ) + 1 - 1 = (n : ℤ) := by omega
    have hsize : ((List.range ((n : ℤ) + 1).toNat).map junk).length = n + 1 := by
      rw [List.length_map, List.length_range]
      omega
    obtain ⟨buf, hstore, hlen, hdrop⟩ :=
      storeInt_fits ((List.range ((n : ℤ) + 1).toNat).map junk) n [0]
        (by rw [hsize, List.length_singleton])
    rw [List.length_singleton, List.drop_eq_nil_of_le (Nat.le_of_eq hsize),
      List.append_nil] at hdrop
    have hroom : buf.length = n + [(0 : UInt8)].length := by
      rw [hlen, hsize, List.length_singleton]
    obtain ⟨hoffs, hgive, hleave⟩ := redirectLoop_eq (d :: up) hroom hdrop
    have heq : ovlGetRedirect ovlRedirectMax true memDup junk d up true =
        ((n : ℤ) :: (redirectLoop (d :: up) buf n).1,
          match (redirectLoop (d :: up) buf n).2 with
          | .running => .running
          | .oops => .oops
          | .ret (.error e) => .ret (.error e)
          | .ret (.ok (buf, off)) => kstrdupAt memDup buf off) := by
      rw [ovlGetRedirect, hn]
      simp only [Bool.not_true, Bool.false_eq_true, if_false, hcast, hstore]
    rw [heq, hn]
    refine ⟨?_, ?_⟩
    · intro o ho
      obtain rfl | ho := List.mem_cons.mp ho
      · omega
      · exact hoffs o ho
    by_cases hlong : n < (writtenPath (d :: up)).length
    · refine .inr (.inl ⟨?_, hlong⟩)
      rw [hgive hlong]
    · obtain ⟨buf', off, hret, hdrop'⟩ := hleave (Nat.le_of_not_lt hlong)
      have h0 := zero_notMem_writtenPath (d :: up)
      have hstr : str (buf'.drop off) = writtenPath (d :: up) := by
        have hc : Carries (buf'.drop off) (buf'.drop off).length (writtenPath (d :: up)) :=
          ⟨rfl, ⟨[], hdrop'⟩, h0⟩
        exact hc.str_eq
      rw [hret]
      simp only [kstrdupAt, if_neg (show ¬ ((off : ℕ) : ℤ) < 0 by omega), Int.toNat_natCast, hstr]
      cases memDup with
      | false => exact .inl ⟨rfl, .inr rfl⟩
      | true =>
        exact .inr (.inr ⟨rfl, Nat.le_of_not_lt hlong⟩)

theorem acceptedRedirect_writtenPath (d : PathDentry) (up : List PathDentry) :
    AcceptedRedirect (writtenPath (d :: up)) := by
  obtain ⟨hok, hne⟩ := redirectOk_writtenPath d up
  exact acceptedRedirect hne (zero_notMem_writtenPath (d :: up)) hok

section Set

variable {ovlRedirectMax : UInt16} {memBuf memDup noxattr samedir isDir : Bool} {junk : ℕ → UInt8}
  {setxattr err : Option Errno} {d : PathDentry} {up : List PathDentry} {nlink : ℕ}
  {value : Option (List UInt8)} {s : List UInt8}

/-- Everything `ovl_get_redirect` can build. -/
theorem ovlGetRedirect_eq_ok {absRedirect : Bool}
    (h : (ovlGetRedirect ovlRedirectMax memBuf memDup junk d up absRedirect).2 = .ret (.ok s)) :
    s = if absRedirect then writtenPath (d :: up) else d.name := by
  cases absRedirect with
  | false =>
    cases memDup with
    | false => cases h
    | true => exact (Except.ok.inj (Outcome.ret.inj h)).symm
  | true =>
    obtain ⟨-, hres⟩ := ovlGetRedirect_abs ovlRedirectMax memBuf memDup junk d up
    rw [h] at hres
    obtain ⟨hres, -⟩ | ⟨hres, -⟩ | ⟨hres, -⟩ := hres
    · cases hres
    · cases hres
    · exact Except.ok.inj (Outcome.ret.inj hres)

/-- Everything `ovl_set_redirect` can return: an error, the redirect that is there, or the
one that is set. -/
theorem ovlSetRedirect_cases
    (h : ovlSetRedirect ovlRedirectMax memBuf memDup junk noxattr setxattr d up samedir isDir
      nlink = .ret (err, value)) :
    ((∃ e, err = some e) ∧ value = none) ∨
      (err = none ∧ value = none ∧ d.redirect.isSome ∧
        (ovlNeedAbsoluteRedirect samedir isDir nlink = false ∨ d.isAbs)) ∨
      (err = none ∧ ¬ (d.redirect.isSome ∧
          (ovlNeedAbsoluteRedirect samedir isDir nlink = false ∨ d.isAbs)) ∧
        value = some (if ovlNeedAbsoluteRedirect samedir isDir nlink then writtenPath (d :: up)
          else d.name)) := by
  rw [ovlSetRedirect] at h
  split at h
  · next hkept =>
    obtain ⟨rfl, rfl⟩ := Prod.mk.inj (Outcome.ret.inj h)
    exact .inr (.inl ⟨rfl, rfl, hkept⟩)
  next hset =>
  split at h
  · cases h
  · cases h
  · next e _ =>
    obtain ⟨rfl, rfl⟩ := Prod.mk.inj (Outcome.ret.inj h)
    exact .inl ⟨⟨e, rfl⟩, rfl⟩
  next redirect hget =>
  split at h
  · obtain ⟨rfl, rfl⟩ := Prod.mk.inj (Outcome.ret.inj h)
    exact .inr (.inr ⟨rfl, hset, congrArg some (ovlGetRedirect_eq_ok hget)⟩)
  · obtain ⟨rfl, rfl⟩ := Prod.mk.inj (Outcome.ret.inj h)
    exact .inl ⟨⟨_, rfl⟩, rfl⟩

/-- Whatever `ovl_set_redirect` sets the attribute to is a redirect that is accepted. -/
theorem ovlSetRedirect_redirectStr
    (h : ovlSetRedirect ovlRedirectMax memBuf memDup junk noxattr setxattr d up samedir isDir
      nlink = .ret (err, some s)) : ∃ r : RedirectStr, r.bytes = s := by
  obtain ⟨-, hnone⟩ | ⟨-, hnone, -⟩ | ⟨-, -, hs⟩ := ovlSetRedirect_cases h
  · cases hnone
  · cases hnone
  · rw [Option.some.inj hs]
    split
    · obtain ⟨hok, hne⟩ := redirectOk_writtenPath d up
      exact ⟨⟨_, hne, zero_notMem_writtenPath (d :: up), hok⟩, rfl⟩
    · exact ⟨⟨d.name, d.isName.ne_nil, d.nonzero, redirectOk_iff.mpr (.inr d.isName.no_slash)⟩, rfl⟩

end Set

/-- The absolute redirect of a dentry: the offset into the buffer stays nonnegative, the
path is returned if it is short enough and else `-EXDEV`, and what is returned is accepted
when it is read. -/
theorem redirect_written_is_accepted (ovlRedirectMax : UInt16) (memBuf memDup : Bool)
    (junk : ℕ → UInt8) (d : PathDentry) (up : List PathDentry) :
    (∀ o ∈ (ovlGetRedirect ovlRedirectMax memBuf memDup junk d up true).1, 0 ≤ o) ∧
      ((ovlGetRedirect ovlRedirectMax memBuf memDup junk d up true).2 = .ret (.error ENOMEM) ∧
          (memBuf = false ∨ memDup = false) ∨
        (ovlGetRedirect ovlRedirectMax memBuf memDup junk d up true).2 = .ret (.error EXDEV) ∧
          ovlRedirectMax.toNat < (writtenPath (d :: up)).length ∨
        (ovlGetRedirect ovlRedirectMax memBuf memDup junk d up true).2 =
            .ret (.ok (writtenPath (d :: up))) ∧
          (writtenPath (d :: up)).length ≤ ovlRedirectMax.toNat ∧
          AcceptedRedirect (writtenPath (d :: up))) := by
  obtain ⟨hoffs, hres⟩ := ovlGetRedirect_abs ovlRedirectMax memBuf memDup junk d up
  refine ⟨hoffs, ?_⟩
  obtain hmem | hlong | ⟨hret, hlen⟩ := hres
  · exact .inl hmem
  · exact .inr (.inl hlong)
  · exact .inr (.inr ⟨hret, hlen, acceptedRedirect_writtenPath d up⟩)

end Written

end FzzOverlay
