import FzzOverlay.Dir.GetRedirect
import FzzOverlay.Namei.Bytes
import FzzOverlay.Namei.Redirect

/-!
# What the redirect that is set stands for

`ovl_set_redirect` gives a directory a redirect before it is moved. Looked up where the
directory is moved to, the redirect stands for the lower directories that the directory
had before.

## Main results

- `ovlSetRedirect_stands` — the redirect stands for the lower stack of the directory
-/

namespace FzzOverlay

open CString SlashPath

/-- A dentry as `ovl_lookup` leaves it, with the redirect parsed. -/
def PathDentry.parsed (d : PathDentry) : List UInt8 × Option Redirect :=
  (d.name, d.redirect.map fun r => parseRedirect r.bytes)

namespace PathDentry

variable {d : PathDentry} {way : DentryPath}

theorem redirectPath_abs {cs : List (List UInt8)} (hcs : (Redirect.abs cs).Plain)
    (h : d.redirectOrName = path cs) : redirectPath (d.parsed :: way) = cs := by
  have hhead : d.redirectOrName.head? = some slash := by
    rw [h]
    exact hcs.head?_text.mpr rfl
  rw [redirectOrName] at h hhead
  cases hr : d.redirect with
  | none =>
    rw [hr] at hhead
    exact absurd (List.mem_of_head? hhead) d.isName.no_slash
  | some r =>
    rw [hr] at h
    have hparse : parseRedirect r.bytes = .abs cs := by
      rw [show r.bytes = (Redirect.abs cs).text from h, parseRedirect_text hcs]
    rw [parsed, hr, Option.map_some, hparse, redirectPath]

theorem redirectPath_rel (h : d.isAbs = false) :
    redirectPath (d.parsed :: way) = redirectPath way ++ [d.redirectOrName] := by
  rw [parsed]
  cases hr : d.redirect with
  | none => rw [Option.map_none, redirectPath, redirectOrName, hr]
  | some r =>
    have hrel : ¬ r.bytes.head? = some slash := by
      rw [isAbs, redirectOrName, hr] at h
      exact of_decide_eq_false h
    rw [Option.map_some, parseRedirect, if_neg hrel, redirectPath, redirectOrName, hr]

end PathDentry

/-- The path that is written has the components of the dentry's path. -/
theorem writtenPath_eq (chain : List PathDentry) :
    writtenPath chain = path (redirectPath (chain.map PathDentry.parsed)) ∧
      ∀ c ∈ redirectPath (chain.map PathDentry.parsed), slash ∉ c := by
  induction chain with
  | nil => exact ⟨rfl, fun c hc => absurd hc List.not_mem_nil⟩
  | cons d up ih =>
    rw [List.map_cons]
    cases hd : d.isAbs with
    | true =>
      obtain ⟨cs, hne, hcs, hpath⟩ := exists_path_of_abs hd
      have hplain : (Redirect.abs cs).Plain := ⟨hne, fun c hc => (hcs c hc).no_slash⟩
      rw [writtenPath_cons_abs hd, PathDentry.redirectPath_abs hplain hpath]
      exact ⟨hpath, hplain.2⟩
    | false =>
      rw [writtenPath_cons_rel hd, PathDentry.redirectPath_rel hd, path_append]
      refine ⟨?_, fun c hc => ?_⟩
      · rw [ih.1]
        simp
      · rcases List.mem_append.mp hc with hc | hc
        · exact ih.2 c hc
        · rw [List.mem_singleton.mp hc]
          exact (isComponent_of_rel hd).no_slash

theorem redirectPath_ne_nil (d : PathDentry) (up : List PathDentry) :
    redirectPath ((d :: up).map PathDentry.parsed) ≠ [] := by
  intro hnil
  obtain ⟨-, hne⟩ := redirectOk_writtenPath d up
  rw [(writtenPath_eq (d :: up)).1, hnil] at hne
  exact hne rfl

theorem parseRedirect_writtenPath (d : PathDentry) (up : List PathDentry) :
    parseRedirect (writtenPath (d :: up)) =
      .abs (redirectPath ((d :: up).map PathDentry.parsed)) := by
  obtain ⟨hpath, hslash⟩ := writtenPath_eq (d :: up)
  rw [hpath]
  exact parseRedirect_text (r := .abs _) ⟨redirectPath_ne_nil d up, hslash⟩

/-- A redirect that was parsed is no path without components. -/
theorem validRedirects_parsedLayers (L : ℕ → Walk.RawLayer) : ValidRedirects (parsedLayers L) := by
  intro layer i r h
  change parsedRedirect ((L layer).inode i).redirect = .ok (some (.abs r)) at h
  exact (parsedRedirect_some h).1.1

section Stands

variable {m : Mount} {fs : Layers} {p q : OvlEntry} {d : PathDentry} {up : List PathDentry}
  {r : Found} {ovlRedirectMax : UInt16} {memBuf memDup noxattr samedir : Bool} {junk : ℕ → UInt8}
  {setxattr : Option Errno} {nlink : ℕ} {value : Option (List UInt8)}

/-- An absolute redirect stands for the same directories everywhere, and a relative one in
all directories with the same lower stack. -/
theorem standsFor_moved {redirect : Redirect}
    (h : redirect.isAbs = false → q.lowerstack = p.lowerstack) :
    standsFor m fs q redirect = standsFor m fs p redirect := by
  cases redirect with
  | abs path => rfl
  | rel name => rw [standsFor, standsFor, h rfl]

theorem isAbs_parseRedirect (h : d.isAbs = true) {rs : RedirectStr} (hr : d.redirect = some rs) :
    (parseRedirect rs.bytes).isAbs = true := by
  rw [PathDentry.isAbs, PathDentry.redirectOrName, hr, decide_eq_true_eq] at h
  rw [parseRedirect, if_pos h]
  rfl

/-- The redirect that a directory has after `ovl_set_redirect` stands, where the directory
is moved to, for the lower directories that it had, unless there is none. -/
theorem ovlSetRedirect_stands (hfollow : m.redirectFollow = true) (horder : RootInOrder m)
    (hvalid : ValidRedirects fs) (hindex : NoLowerDirIndex m fs)
    (hp : Reached m fs p (up.map PathDentry.parsed)) (hlookup : ovlLookup m fs p d.name = .ok r)
    (hdir : foundKind fs r = some .dir) (hred : d.parsed.2 = r.redirect)
    (hset : ovlSetRedirect ovlRedirectMax memBuf memDup junk noxattr setxattr d up samedir true
      nlink = .ret (none, value))
    (hq : samedir = true → q.lowerstack = p.lowerstack) :
    ∃ redirect, (value.map parseRedirect).or r.redirect = some redirect ∧
      (redirect.isAbs = false → samedir = true) ∧
      (r.entry.lowerstack = [] ∨ standsFor m fs q redirect = .ok r.entry.lowerstack) := by
  have hsame : ovlNeedAbsoluteRedirect samedir true nlink = false → samedir = true := by
    intro h
    rw [ovlNeedAbsoluteRedirect] at h
    cases samedir with
    | true => rfl
    | false => cases h
  have hstands := ovlLookup_dir hfollow hindex hlookup hdir
  have hchain : (d :: up).map PathDentry.parsed =
      (d.name, r.redirect) :: up.map PathDentry.parsed := by
    rw [List.map_cons, ← hred]
    rfl
  rw [PathDentry.parsed] at hred
  obtain ⟨⟨e, he⟩, -⟩ | ⟨-, rfl, hsome, hkeep⟩ | ⟨-, hnew, rfl⟩ := ovlSetRedirect_cases hset
  · cases he
  · obtain ⟨rs, hrs⟩ := Option.isSome_iff_exists.mp hsome
    rw [hrs, Option.map_some] at hred
    rw [← hred] at hstands ⊢
    have hrel : (parseRedirect rs.bytes).isAbs = false → samedir = true := by
      intro hrel
      obtain hnot | habs := hkeep
      · exact hsame hnot
      · rw [isAbs_parseRedirect habs hrs] at hrel
        cases hrel
    refine ⟨_, rfl, hrel, hstands.imp_right fun h => ?_⟩
    rw [standsFor_moved fun h' => hq (hrel h')]
    exact h
  · cases habs : ovlNeedAbsoluteRedirect samedir true nlink with
    | false =>
      have hnone : d.redirect = none := by
        rw [← Option.not_isSome_iff_eq_none]
        exact fun hsome => hnew ⟨hsome, .inl habs⟩
      have hname : parseRedirect d.name = .rel d.name := by
        rw [parseRedirect, if_neg fun h => d.isName.no_slash (List.mem_of_head? h)]
      rw [hnone, Option.map_none] at hred
      rw [← hred] at hstands
      refine ⟨_, congrArg some hname, fun _ => hsame habs, hstands.imp_right fun h => ?_⟩
      rw [standsFor_moved fun _ => hq (hsame habs)]
      exact h
    | true =>
      refine ⟨_, congrArg some (parseRedirect_writtenPath d up), fun hrel => (by cases hrel), ?_⟩
      have hreached := hp.child hlookup hdir
      obtain hnil | hpath := hreached.stack hfollow horder hvalid hindex
      · exact .inl hnil
      right
      rw [← hchain, pathStack, if_neg (redirectPath_ne_nil d up)] at hpath
      exact hpath

end Stands

end FzzOverlay
