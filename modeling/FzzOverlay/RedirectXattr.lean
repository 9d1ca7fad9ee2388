import FzzOverlay.Entry
import FzzOverlay.Lib.CString
import FzzOverlay.Lib.SlashPath

/-!
# Reading the redirect attribute

`ovl_getxattr` and `ovl_get_redirect_xattr` of `util.c` on the bytes of the attribute. A
value may hold zero bytes, and then only the string before the first one is looked at.

## Main results

- `redirectOk_iff` — which strings pass the check: a name, or a path of nonempty names
- `ovlGetRedirectXattr_ok` — what is returned for an accepted value
-/

namespace FzzOverlay

open CString SlashPath

def EOPNOTSUPP : Errno := ⟨95, by decide⟩

/-- `KMALLOC_MAX_SIZE` with pages of 4096 bytes. -/
def KMALLOC_MAX_SIZE : ℕ := 2 ^ 22

/-- The sizes that there is memory for. -/
structure Kmalloc where
  succeeds : ℕ → Bool
  limit : ∀ n, succeeds n = true → n ≤ KMALLOC_MAX_SIZE

/-- The value of an attribute. Its length is a `ssize_t`. -/
structure XattrValue where
  bytes : List UInt8
  short : bytes.length < 2 ^ 63

/-- `ovl_getxattr` on what `vfs_getxattr` finds: the buffer, or `NULL` for an empty value. -/
def ovlGetxattr (mem : Kmalloc) (value : Except Errno XattrValue) (padding : ℕ) :
    Outcome (Except Errno (Option (List UInt8))) :=
  match value with
  | .error e =>
    if e.ret = ENODATA.ret ∨ e.ret = EOPNOTSUPP.ret then .ret (.error ENODATA)
    else .ret (.error e)
  | .ok v =>
    if v.bytes.length = 0 then .ret (.ok none)
    else
      let size := (v.bytes.length + padding) % 2 ^ 64
      if !mem.succeeds size then .ret (.error ENOMEM)
      else
        match store (List.replicate size 0) 0 v.bytes with
        | none => .oops
        | some buf => .ret (.ok (some buf))

/-- The loop over an absolute redirect; `false` is the jump to `invalid`. -/
def componentsOk : List UInt8 → Bool
  | [] => true
  | b :: s =>
    if b = slash then
      if s = strchrnul s then false else componentsOk (strchrnul s)
    else true
  termination_by s => s.length
  decreasing_by
    have := length_strchrnul_le s
    rw [List.length_cons]
    omega

/-- The check of `ovl_get_redirect_xattr` on a string. -/
def redirectOk (s : List UInt8) : Bool :=
  if s.head? = some slash then componentsOk s else !s.contains slash

/-- `ovl_get_redirect_xattr`. -/
def ovlGetRedirectXattr (mem : Kmalloc) (value : Except Errno XattrValue) (padding : ℤ) :
    Outcome (Except Errno (Option (List UInt8))) :=
  match ovlGetxattr mem value ((padding + 1) % 2 ^ 64).toNat with
  | .running => .running
  | .oops => .oops
  | .ret (.error e) => if e.ret = ENODATA.ret then .ret (.ok none) else .ret (.error e)
  | .ret (.ok none) => .ret (.error EINVAL)
  | .ret (.ok (some buf)) =>
    if redirectOk (str buf) then .ret (.ok (some buf)) else .ret (.error EINVAL)

section Grammar

variable {s : List UInt8}

theorem componentsOk_path {cs : List (List UInt8)} (h : ∀ c ∈ cs, IsComponent c) :
    componentsOk (path cs) = true := by
  induction cs with
  | nil => rw [path_nil, componentsOk]
  | cons c cs ih =>
    obtain ⟨hne, hc⟩ := h c (List.mem_cons_self)
    have hadv : c ++ path cs ≠ path cs := by
      intro heq
      exact hne (by simpa using heq)
    rw [path_cons, componentsOk, if_pos rfl, strchrnul_path hc, if_neg hadv]
    exact ih fun d hd => h d (List.mem_cons_of_mem _ hd)

theorem exists_path_of_componentsOk (hs : AtSlash s) (h : componentsOk s = true) :
    ∃ cs, (∀ c ∈ cs, IsComponent c) ∧ s = path cs := by
  induction s using componentsOk.induct with
  | case1 => exact ⟨[], by simp, rfl⟩
  | case2 s heq =>
    rw [componentsOk, if_pos rfl, if_pos heq] at h
    cases h
  | case3 s hne ih =>
    rw [componentsOk, if_pos rfl, if_neg hne] at h
    obtain ⟨cs, hcs, hpath⟩ := ih (atSlash_strchrnul s) h
    obtain ⟨c, hc, hsplit⟩ := exists_component s
    refine ⟨c :: cs, ?_, ?_⟩
    · rintro d (_ | ⟨_, hd⟩)
      · refine ⟨?_, hc⟩
        rintro rfl
        exact hne hsplit
      · exact hcs d hd
    · rw [path_cons, ← hpath, ← hsplit]
  | case4 b s hb =>
    obtain hnil | hhead := hs
    · cases hnil
    · exact absurd (Option.some.inj hhead) hb

/-- The check passes names, and paths of nonempty names. -/
theorem redirectOk_iff :
    redirectOk s = true ↔
      (∃ cs, cs ≠ [] ∧ (∀ c ∈ cs, IsComponent c) ∧ s = path cs) ∨ slash ∉ s := by
  rw [redirectOk]
  by_cases hs : s.head? = some slash
  · rw [if_pos hs]
    constructor
    · intro h
      obtain ⟨cs, hcs, rfl⟩ := exists_path_of_componentsOk (.inr hs) h
      refine .inl ⟨cs, ?_, hcs, rfl⟩
      rintro rfl
      cases hs
    · rintro (⟨cs, -, hcs, rfl⟩ | hnot)
      · exact componentsOk_path hcs
      · exact absurd (List.mem_of_head? hs) hnot
  · rw [if_neg hs]
    constructor
    · intro h
      exact .inr (by simpa using h)
    · rintro (⟨cs, hne, -, rfl⟩ | hnot)
      · cases cs with
        | nil => exact absurd rfl hne
        | cons c cs => exact absurd rfl hs
      · simpa using hnot

end Grammar

section Value

variable {mem : Kmalloc} {padding : ℕ}

theorem str_append_zeros (s : List UInt8) (n : ℕ) : str (s ++ List.replicate n 0) = str s := by
  rw [str, str, List.takeWhile_append]
  have hzeros : (List.replicate n (0 : UInt8)).takeWhile (fun c => decide (c ≠ 0)) = [] := by
    cases n with
    | zero => rfl
    | succ n => simp [List.replicate_succ]
  split
  · next hall =>
    rw [hzeros, List.append_nil]
    exact ((List.takeWhile_sublist _).eq_of_length hall).symm
  · rfl

/-- `ovl_getxattr` on an attribute that is there: the value with zero bytes behind it. -/
theorem ovlGetxattr_ok (mem : Kmalloc) (v : XattrValue) (hp : padding + 1 < 2 ^ 31) :
    ovlGetxattr mem (.ok v) (padding + 1) =
      if v.bytes.length = 0 then .ret (.ok none)
      else if !mem.succeeds (v.bytes.length + (padding + 1)) then .ret (.error ENOMEM)
      else .ret (.ok (some (v.bytes ++ List.replicate (padding + 1) 0))) := by
  have hsize : (v.bytes.length + (padding + 1)) % 2 ^ 64 = v.bytes.length + (padding + 1) := by
    have := v.short
    omega
  have hstore : store (List.replicate (v.bytes.length + (padding + 1)) 0) 0 v.bytes =
      some (v.bytes ++ List.replicate (padding + 1) 0) := by
    rw [List.replicate_add]
    simp [store]
  rw [ovlGetxattr]
  simp only [hsize, hstore]

/-- `ovl_get_redirect_xattr` on an attribute that is there. -/
theorem ovlGetRedirectXattr_ok (mem : Kmalloc) (v : XattrValue) (hp : padding + 1 < 2 ^ 31) :
    ovlGetRedirectXattr mem (.ok v) padding =
      if v.bytes.length = 0 then .ret (.error EINVAL)
      else if !mem.succeeds (v.bytes.length + (padding + 1)) then .ret (.error ENOMEM)
      else if redirectOk (str v.bytes) then
        .ret (.ok (some (v.bytes ++ List.replicate (padding + 1) 0)))
      else .ret (.error EINVAL) := by
  have hpad : (((padding : ℤ) + 1) % 2 ^ 64).toNat = padding + 1 := by omega
  rw [ovlGetRedirectXattr, hpad, ovlGetxattr_ok mem v hp]
  by_cases hlen : v.bytes.length = 0
  · simp only [if_pos hlen]
  · simp only [if_neg hlen]
    cases mem.succeeds (v.bytes.length + (padding + 1)) with
    | false =>
      have hne : ENOMEM.ret ≠ ENODATA.ret := by decide
      simp [hne]
    | true => simp [str_append_zeros]

/-- The buffer that is returned has the string and, behind it, the padding. -/
theorem carries_padded (v : List UInt8) (n : ℕ) :
    Carries (v ++ List.replicate (n + 1) 0) (v.length + (n + 1)) (str v) := by
  have h := carries_str (b := v ++ List.replicate (n + 1) 0) (by simp)
  rwa [List.length_append, List.length_replicate, str_append_zeros] at h

/-- Everything `ovl_get_redirect_xattr` can return. -/
theorem ovlGetRedirectXattr_cases (mem : Kmalloc) (value : Except Errno XattrValue)
    (hp : padding + 1 < 2 ^ 31) :
    (∃ e, ovlGetRedirectXattr mem value padding = .ret (.error e)) ∨
      ovlGetRedirectXattr mem value padding = .ret (.ok none) ∨
      ∃ v buf, value = .ok v ∧ mem.succeeds (v.bytes.length + (padding + 1)) = true ∧
        redirectOk (str v.bytes) = true ∧
        Carries buf (v.bytes.length + (padding + 1)) (str v.bytes) ∧
        ovlGetRedirectXattr mem value padding = .ret (.ok (some buf)) := by
  cases value with
  | error e =>
    rw [ovlGetRedirectXattr, ovlGetxattr]
    by_cases hnone : e.ret = ENODATA.ret ∨ e.ret = EOPNOTSUPP.ret
    · exact .inr (.inl (by simp [hnone]))
    · have hne : e.ret ≠ ENODATA.ret := fun h => hnone (.inl h)
      exact .inl ⟨e, by simp only [if_neg hnone, if_neg hne]⟩
  | ok v =>
    rw [ovlGetRedirectXattr_ok mem v hp]
    split
    · exact .inl ⟨_, rfl⟩
    split
    · exact .inl ⟨_, rfl⟩
    next hmem =>
    split
    · next hok =>
      refine .inr (.inr ⟨v, _, rfl, ?_, hok, carries_padded v.bytes padding, rfl⟩)
      simpa using hmem
    · exact .inl ⟨_, rfl⟩

end Value

end FzzOverlay
