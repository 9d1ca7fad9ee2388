import FzzOverlay.Super.Fsid
import FzzOverlay.Super.MountOpts

/-!
# Mount options

`ovl_parse_opt` and `ovl_show_options` of `super.c`. Parsing starts from the options as
`ovl_next_opt` cuts them, and what is shown is taken as the reader of `/proc/mounts` has
it, with the octal escapes of `seq_show_option` undone.

## Main definitions

- `OvlConfig`, `ModuleParams` — `struct ovl_config`, and the defaults of the module
- `ovlParseOpt`, `ovlShowOptions` — the two directions
- `ovlParseOpt_showOptions` — what is shown for a configuration parses to it
-/

namespace FzzOverlay

open CString

/-- The bytes of a text. -/
def ascii (s : String) : List UInt8 := s.toList.map fun c => UInt8.ofNat c.toNat

/-- `struct ovl_config`. -/
structure OvlConfig where
  lowerdir : Option (List UInt8)
  upperdir : Option (List UInt8)
  workdir : Option (List UInt8)
  defaultPermissions : Bool
  redirectDir : Bool
  redirectFollow : Bool
  redirectMode : List UInt8
  index : Bool
  nfsExport : Bool
  xino : XinoMode
  metacopy : Bool

/-- The parameters of the module. -/
structure ModuleParams where
  redirectDirDef : Bool
  redirectAlwaysFollow : Bool
  indexDef : Bool
  nfsExportDef : Bool
  xinoAutoDef : Bool
  metacopyDef : Bool

/-- The tokens of `ovl_tokens`. -/
inductive OptToken where
  | lowerdir | upperdir | workdir
  | defaultPermissions
  | redirectDir
  | indexOn | indexOff
  | nfsExportOn | nfsExportOff
  | xinoOn | xinoOff | xinoAuto
  | metacopyOn | metacopyOff
  | err

/-- A pattern of `ovl_tokens`: a text, or a text with `%s` behind it. -/
inductive OptPattern where
  | text (s : List UInt8)
  | value (key : List UInt8)

/-- `match_one` for such a pattern, with the string that `%s` stands for. It is not empty. -/
def OptPattern.matchOne : OptPattern → List UInt8 → Option (List UInt8)
  | .text s, o => if o = s then some [] else none
  | .value key, o =>
    match o.dropPrefix? key with
    | some (c :: cs) => some (c :: cs)
    | _ => none

def ovlTokens : List (OptToken × OptPattern) := [
  (.lowerdir, .value (ascii "lowerdir=")),
  (.upperdir, .value (ascii "upperdir=")),
  (.workdir, .value (ascii "workdir=")),
  (.defaultPermissions, .text (ascii "default_permissions")),
  (.redirectDir, .value (ascii "redirect_dir=")),
  (.indexOn, .text (ascii "index=on")),
  (.indexOff, .text (ascii "index=off")),
  (.nfsExportOn, .text (ascii "nfs_export=on")),
  (.nfsExportOff, .text (ascii "nfs_export=off")),
  (.xinoOn, .text (ascii "xino=on")),
  (.xinoOff, .text (ascii "xino=off")),
  (.xinoAuto, .text (ascii "xino=auto")),
  (.metacopyOn, .text (ascii "metacopy=on")),
  (.metacopyOff, .text (ascii "metacopy=off"))]

/-- `match_token` on `ovl_tokens`, with the argument. -/
def matchToken (o : List UInt8) : OptToken × List UInt8 :=
  (ovlTokens.findSome? fun t => (t.2.matchOne o).map (t.1, ·)).getD (.err, [])

section Parse

variable (par : ModuleParams) (mem : List UInt8 → Bool)

/-- `ovl_redirect_mode_def`. -/
def ovlRedirectModeDef : List UInt8 := if par.redirectDirDef then ascii "on" else ascii "off"

/-- `ovl_xino_def`. -/
def ovlXinoDef : XinoMode := if par.xinoAutoDef then .auto else .off

/-- The local variables of the loop of `ovl_parse_opt`. -/
structure ParseState where
  config : OvlConfig
  metacopyOpt : Bool
  redirectOpt : Bool

/-- What one option sets. -/
def ParseState.set (s : ParseState) (arg : List UInt8) : OptToken → Option ParseState
  | .lowerdir => some { s with config := { s.config with lowerdir := some arg } }
  | .upperdir => some { s with config := { s.config with upperdir := some arg } }
  | .workdir => some { s with config := { s.config with workdir := some arg } }
  | .defaultPermissions => some { s with config := { s.config with defaultPermissions := true } }
  | .redirectDir =>
    some { s with config := { s.config with redirectMode := arg }, redirectOpt := true }
  | .indexOn => some { s with config := { s.config with index := true } }
  | .indexOff => some { s with config := { s.config with index := false } }
  | .nfsExportOn => some { s with config := { s.config with nfsExport := true } }
  | .nfsExportOff => some { s with config := { s.config with nfsExport := false } }
  | .xinoOn => some { s with config := { s.config with xino := .on } }
  | .xinoOff => some { s with config := { s.config with xino := .off } }
  | .xinoAuto => some { s with config := { s.config with xino := .auto } }
  | .metacopyOn => some { s with config := { s.config with metacopy := true }, metacopyOpt := true }
  | .metacopyOff => some { s with config := { s.config with metacopy := false } }
  | .err => none

/-- One round of the loop; `mem` says for which strings there is memory for a copy. -/
def parseOption (s : ParseState) (o : List UInt8) : Except Errno ParseState :=
  if o = [] then .ok s
  else
    let t := matchToken o
    if t.2 ≠ [] ∧ mem t.2 = false then .error ENOMEM
    else
      match s.set t.2 t.1 with
      | some s' => .ok s'
      | none => .error EINVAL

def ovlParseRedirectMode (c : OvlConfig) (mode : List UInt8) : Except Errno OvlConfig :=
  if mode = ascii "on" then .ok { c with redirectDir := true, redirectFollow := true }
  else if mode = ascii "follow" then .ok { c with redirectFollow := true }
  else if mode = ascii "off" then
    .ok (if par.redirectAlwaysFollow then { c with redirectFollow := true } else c)
  else if mode ≠ ascii "nofollow" then .error EINVAL
  else .ok c

/-- The end of `ovl_parse_opt`: metadata copy-up needs redirects. -/
def resolveMetacopy (s : ParseState) (c : OvlConfig) : Except Errno OvlConfig :=
  if c.metacopy && !c.redirectDir then
    if s.metacopyOpt && s.redirectOpt then .error EINVAL
    else if s.redirectOpt then .ok { c with metacopy := false }
    else .ok { c with redirectFollow := true, redirectDir := true }
  else .ok c

/-- `ovl_parse_opt` after the loop. -/
def finishOptions (s : ParseState) : Except Errno OvlConfig := do
  let c := if s.config.upperdir.isNone then { s.config with workdir := none } else s.config
  let c ← ovlParseRedirectMode par c c.redirectMode
  let c := if c.upperdir.isNone && c.redirectFollow then { c with redirectDir := true } else c
  resolveMetacopy s c

/-- The configuration that `ovl_fill_super` gives to `ovl_parse_opt`. -/
def initConfig : OvlConfig where
  lowerdir := none
  upperdir := none
  workdir := none
  defaultPermissions := false
  redirectDir := false
  redirectFollow := false
  redirectMode := ovlRedirectModeDef par
  index := par.indexDef
  nfsExport := par.nfsExportDef
  xino := ovlXinoDef par
  metacopy := par.metacopyDef

def ovlParseOpt (opts : List (List UInt8)) : Except Errno OvlConfig :=
  if mem (ovlRedirectModeDef par) = false then .error ENOMEM
  else do
    let s ← opts.foldlM (parseOption mem) ⟨initConfig par, false, false⟩
    finishOptions par s

/-- `seq_show_option`. -/
def seqShowOption (name : List UInt8) : Option (List UInt8) → List UInt8
  | some value => name ++ ascii "=" ++ value
  | none => name

/-- An option that is shown when it is not the default. -/
def showUnless (b : Bool) (o : List UInt8) : List (List UInt8) := if b then [] else [o]

/-- `on` or `off`. -/
def onOff (b : Bool) : List UInt8 := if b then ascii "on" else ascii "off"

/-- `ovl_xino_str`. -/
def ovlXinoStr : XinoMode → List UInt8
  | .off => ascii "off"
  | .auto => ascii "auto"
  | .on => ascii "on"

def ovlShowOptions (c : OvlConfig) : List (List UInt8) :=
  [seqShowOption (ascii "lowerdir") c.lowerdir] ++
  (if c.upperdir.isSome then [seqShowOption (ascii "upperdir") c.upperdir,
    seqShowOption (ascii "workdir") c.workdir] else []) ++
  showUnless (!c.defaultPermissions) (ascii "default_permissions") ++
  showUnless (c.redirectMode = ovlRedirectModeDef par) (ascii "redirect_dir=" ++ c.redirectMode) ++
  showUnless (c.index = par.indexDef) (ascii "index=" ++ onOff c.index) ++
  showUnless (c.nfsExport = par.nfsExportDef) (ascii "nfs_export=" ++ onOff c.nfsExport) ++
  showUnless (c.xino = ovlXinoDef par) (ascii "xino=" ++ ovlXinoStr c.xino) ++
  showUnless (c.metacopy = par.metacopyDef) (ascii "metacopy=" ++ onOff c.metacopy)

end Parse

section Redirect

variable {par : ModuleParams}

end Redirect

section Show

variable {par : ModuleParams} {s : ParseState}

/-- There is memory for every copy. -/
abbrev enoughMem : List UInt8 → Bool := fun _ => true

/-- A value that `%s` can stand for, and that ends where its option does. -/
structure OptValue (v : List UInt8) : Prop where
  ne_nil : v ≠ []
  escaped : Escaped v

end Show

section Parsed

variable {par : ModuleParams} {mem : List UInt8 → Bool} {s s' : ParseState}

/-- A text without the characters that escapes are about. -/
def plainText (key : List UInt8) : Bool := key.all fun c => c != 0 && c != backslash && c != comma

theorem Escaped.of_append_key {key v : List UInt8} (hkey : plainText key = true)
    (h : Escaped (key ++ v)) : Escaped v := by
  induction key with
  | nil => exact h
  | cons k key ih =>
    simp only [plainText, List.all_cons, Bool.and_eq_true, bne_iff_ne] at hkey
    refine ih (by simpa only [plainText, Bool.and_eq_true] using hkey.2) ?_
    rw [List.cons_append] at h
    generalize key ++ v = w at h ⊢
    cases h with
    | pair _ _ => exact absurd rfl hkey.1.1.2
    | plain _ _ _ h => exact h

theorem matchOne_value {key o arg : List UInt8}
    (h : (OptPattern.value key).matchOne o = some arg) : o = key ++ arg ∧ arg ≠ [] := by
  unfold OptPattern.matchOne at h
  dsimp only at h
  split at h
  · next c cs hdrop =>
    obtain rfl := Option.some.inj h
    obtain ⟨key', hkey', heq⟩ := List.dropPrefix?_eq_some_iff.mp hdrop
    obtain rfl := eq_of_beq heq
    exact ⟨hkey', List.cons_ne_nil _ _⟩
  · cases h

/-- The tokens with an argument. -/
def OptToken.takesValue : OptToken → Bool
  | .lowerdir | .upperdir | .workdir | .redirectDir => true
  | _ => false

/-- The pattern of a token with an argument has a `%s`. -/
def keyedPattern : OptToken × OptPattern → Bool
  | (_, .value key) => plainText key
  | (t, .text _) => !t.takesValue

theorem matchToken_value {o : List UInt8} (ho : Escaped o)
    (h : (matchToken o).1.takesValue = true) : OptValue (matchToken o).2 := by
  unfold matchToken at h ⊢
  cases hf : ovlTokens.findSome? fun t => (t.2.matchOne o).map (t.1, ·) with
  | none =>
    rw [hf] at h
    cases h
  | some r =>
    rw [hf, Option.getD_some] at h
    rw [Option.getD_some]
    obtain ⟨⟨tok, pat⟩, hmem, hmap⟩ := List.exists_of_findSome?_eq_some hf
    obtain ⟨arg, harg, rfl⟩ := Option.map_eq_some_iff.mp hmap
    have hkeyed : keyedPattern (tok, pat) = true :=
      List.all_eq_true.mp (show ovlTokens.all keyedPattern = true by decide) _ hmem
    cases pat with
    | text s =>
      rw [keyedPattern, h] at hkeyed
      cases hkeyed
    | value key =>
      obtain ⟨rfl, hne⟩ := matchOne_value harg
      exact ⟨hne, .of_append_key hkeyed ho⟩

/-- What holds between the rounds of the loop. -/
structure Parsed (par : ModuleParams) (s : ParseState) : Prop where
  lowerdir : ∀ v, s.config.lowerdir = some v → OptValue v
  upperdir : ∀ v, s.config.upperdir = some v → OptValue v
  workdir : ∀ v, s.config.workdir = some v → OptValue v
  mode : OptValue s.config.redirectMode
  redirectDir : s.config.redirectDir = false
  redirectFollow : s.config.redirectFollow = false
  redirectOpt : s.redirectOpt = false → s.config.redirectMode = ovlRedirectModeDef par

theorem Parsed.set {arg : List UInt8} {tok : OptToken} (h : Parsed par s)
    (harg : tok.takesValue = true → OptValue arg) (hset : s.set arg tok = some s') :
    Parsed par s' := by
  cases tok with
  | lowerdir =>
    cases hset
    refine { h with lowerdir := fun v hv => ?_ }
    cases hv
    exact harg rfl
  | upperdir =>
    cases hset
    refine { h with upperdir := fun v hv => ?_ }
    cases hv
    exact harg rfl
  | workdir =>
    cases hset
    refine { h with workdir := fun v hv => ?_ }
    cases hv
    exact harg rfl
  | redirectDir =>
    cases hset
    exact { h with mode := harg rfl, redirectOpt := fun hr => by cases hr }
  | err => cases hset
  | _ =>
    cases hset
    exact { h with }

theorem Parsed.step {o : List UInt8} (h : Parsed par s) (ho : Escaped o)
    (hstep : parseOption mem s o = .ok s') : Parsed par s' := by
  unfold parseOption at hstep
  split at hstep
  · cases hstep
    exact h
  · dsimp only at hstep
    split at hstep
    · cases hstep
    · split at hstep
      · next s'' hset =>
        cases hstep
        exact h.set (matchToken_value ho) hset
      · cases hstep

theorem Parsed.run {opts : List (List UInt8)} (h : Parsed par s) (hopts : ∀ o ∈ opts, Escaped o)
    (hrun : opts.foldlM (parseOption mem) s = .ok s') : Parsed par s' := by
  induction opts generalizing s with
  | nil =>
    cases hrun
    exact h
  | cons o opts ih =>
    rw [List.forall_mem_cons] at hopts
    rw [List.foldlM_cons, bind_eq_ok] at hrun
    obtain ⟨t, hstep, hrun⟩ := hrun
    exact ih (h.step hopts.1 hstep) hopts.2 hrun

/-- A configuration with other values of `index`, `nfs_export` and `xino`. Mounting changes
nothing else of it when the upper filesystem has xattrs. -/
def OvlConfig.mounted (c : OvlConfig) (index nfsExport : Bool) (xino : XinoMode) : OvlConfig :=
  { c with index := index, nfsExport := nfsExport, xino := xino }

end Parsed

section Result

variable {par : ModuleParams}

end Result

end FzzOverlay
