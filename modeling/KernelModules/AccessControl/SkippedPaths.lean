import KernelModules.AccessControl.LsmHooks

/-!
# The paths that the access check looks at

The listed directories, component by component (`Path.Listed`), against the bytes that
`mp4_should_skip_path` compares (`Path.BeginsListed`). `mp4_inode_permission` asks about the label
of an inode when its path is neither skipped nor too long for the buffer (`Path.Checked`), and
grants every other access (`mp4InodePermission_eq`).
-/

set_option autoImplicit false
set_option relaxedAutoImplicit false

namespace KernelModules.AccessControl

open Foundation

/-! ### Listed directories -/

/-- The names of the listed directories. -/
def listedDirs : List Text :=
  [bytes "dev", bytes "proc", bytes "lib", bytes "events", bytes "mnt", bytes "run", bytes "lvm",
    bytes "conf", bytes "usr", bytes "bin"]

/-- The path is the root, a listed directory, or below one. -/
def Path.Listed : Path → Prop
  | [] => True
  | first :: _ => first.name ∈ listedDirs

/-- The first component of the path begins with the bytes of the name of a listed directory. -/
def Path.BeginsListed : Path → Prop
  | [] => False
  | first :: _ => ∃ name ∈ listedDirs, name <+: first.name

instance : DecidablePred Path.Listed
  | [] => isTrue trivial
  | first :: _ => inferInstanceAs (Decidable (first.name ∈ listedDirs))

instance : DecidablePred Path.BeginsListed
  | [] => isFalse not_false
  | first :: _ => inferInstanceAs (Decidable (∃ name ∈ listedDirs, name <+: first.name))

/-- `mp4_inode_permission` checks accesses to the path: it is not the root, its text fits into the
buffer, and it does not begin with the bytes of a listed name. -/
def Path.Checked (path : Path) : Prop :=
  path ≠ [] ∧ path.render.length ≤ 254 ∧ ¬ path.BeginsListed

instance : DecidablePred Path.Checked := fun path ↦
  inferInstanceAs (Decidable (path ≠ [] ∧ path.render.length ≤ 254 ∧ ¬ path.BeginsListed))

/-! ### Which paths are skipped -/

/-- A name without a slash that begins a name followed by nothing or a slash begins the name. -/
theorem begins_append_iff {first name rest : Text} (hfirst : (47 : UInt8) ∉ first)
    (hrest : ∀ c ∈ rest.head?, c = 47) : first <+: name ++ rest ↔ first <+: name := by
  induction first generalizing name with
  | nil => simp
  | cons c others ih =>
    rw [List.mem_cons, not_or] at hfirst
    cases name with
    | nil =>
      rw [List.nil_append]
      cases rest with
      | nil => rfl
      | cons d tail =>
        have hslash : d = 47 := hrest d rfl
        rw [List.cons_prefix_cons]
        refine iff_of_false (fun hboth ↦ hfirst.1 (hboth.1.trans hslash).symm) ?_
        simp
    | cons d tail =>
      rw [List.cons_append, List.cons_prefix_cons, List.cons_prefix_cons, ih hfirst.2]

/-- What follows the first component of a path is nothing or begins with a slash. -/
theorem head_flatMap_component (path : Path) (c : UInt8)
    (hc : c ∈ (path.flatMap fun component ↦ bytes "/" ++ component.name).head?) : c = 47 := by
  cases path with
  | nil => cases hc
  | cons first rest => exact (Option.some.inj hc).symm

/-- The text of a path has no NUL. -/
theorem nul_not_mem_render (path : Path) : (0 : UInt8) ∉ path.render := by
  cases path with
  | nil => decide
  | cons first rest =>
    intro hmem
    obtain ⟨component, -, hcomponent⟩ := List.mem_flatMap.mp hmem
    rcases List.mem_append.mp hcomponent with hslash | hname
    · exact absurd hslash (by decide)
    · exact component.nul_not_mem hname

/-- The literals that the hook compares are the listed names after a slash. -/
theorem skippedDirs_eq :
    skippedDirs.map Prod.fst = listedDirs.map fun name ↦ bytes "/" ++ name := by
  decide

/-- The names of the listed directories have no slash. -/
theorem slash_not_mem_listedDirs {name : Text} (hname : name ∈ listedDirs) :
    (47 : UInt8) ∉ name := by
  have hall : ∀ name ∈ listedDirs, (47 : UInt8) ∉ name := by decide
  exact hall name hname

/-- The hook skips the root, and the paths whose first component begins with a listed name. -/
theorem mp4ShouldSkipPath_render (path : Path) :
    mp4ShouldSkipPath (Memory.ofText path.render) = true ↔ path = [] ∨ path.BeginsListed := by
  rw [mp4ShouldSkipPath_ofText (nul_not_mem_render path)]
  cases path with
  | nil => exact iff_of_true (Or.inl rfl) (Or.inl rfl)
  | cons first rest =>
    have hrender : Path.render (first :: rest) = bytes "/" ++
        (first.name ++ rest.flatMap fun component ↦ bytes "/" ++ component.name) := by
      rw [Path.render, List.flatMap_cons, List.append_assoc]
      exact List.cons_ne_nil _ _
    have hroot : Path.render (first :: rest) ≠ bytes "/" := by
      rw [hrender]
      intro heq
      have hnil := List.append_right_eq_self.mp heq
      exact first.name_ne_nil (List.append_eq_nil_iff.mp hnil).1
    have hbegins : ∀ name ∈ listedDirs,
        (bytes "/" ++ name <+: Path.render (first :: rest) ↔ name <+: first.name) := by
      intro name hname
      rw [hrender, List.prefix_append_right_inj]
      exact begins_append_iff (slash_not_mem_listedDirs hname) (head_flatMap_component rest)
    have hliterals : (∃ skipped ∈ skippedDirs, skipped.1 <+: Path.render (first :: rest)) ↔
        ∃ literal ∈ skippedDirs.map Prod.fst, literal <+: Path.render (first :: rest) := by
      simp only [List.mem_map, exists_exists_and_eq_and]
    rw [or_iff_right hroot, or_iff_right (List.cons_ne_nil first rest), hliterals, skippedDirs_eq]
    simp only [List.mem_map, exists_exists_and_eq_and, Path.BeginsListed]
    exact exists_congr fun name ↦ and_congr_right fun hname ↦ hbegins name hname

/-- A listed path other than the root begins with a listed name. -/
theorem Path.Listed.skipped {path : Path} (hlisted : path.Listed) :
    mp4ShouldSkipPath (Memory.ofText path.render) = true := by
  rw [mp4ShouldSkipPath_render]
  cases path with
  | nil => exact Or.inl rfl
  | cons first rest => exact Or.inr ⟨first.name, hlisted, List.prefix_rfl⟩

/-- The paths that are checked fit into the buffer and are not skipped. -/
theorem Path.checked_iff (path : Path) : path.Checked ↔
    path.render.length < 255 ∧ mp4ShouldSkipPath (Memory.ofText path.render) = false := by
  rw [Path.Checked, ← Bool.not_eq_true, mp4ShouldSkipPath_render, not_or, Nat.lt_succ_iff]
  exact and_left_comm

/-- `mp4_inode_permission` asks `mp4_has_permission` about the label of the inode where the path is
checked, and grants every other access. Assumes: an alias, and a buffer for the path. -/
theorem mp4InodePermission_eq {Inode Dentry : Type*} {vfs : Vfs Inode Dentry}
    {path : Dentry → Path} {inode : Inode} {dentry : Dentry} {osid : ℤ} {val : Option Memory}
    (hpath : vfs.Renders path) (halias : vfs.dFindAlias inode = some dentry)
    (hsid : getInodeSid vfs inode val = .ok osid) (hosid : 0 ≤ osid) (cs : Mp4Security)
    (mask : UInt32) :
    mp4InodePermission vfs (some cs) inode mask true val =
      if (path dentry).Checked then
        .ok ⟨mp4HasPermission cs.mp4Flags osid (mask &&& (mayRead ||| mayExec ||| mayWrite)), true⟩
      else .ok unchecked := by
  simp only [Path.checked_iff]
  unfold mp4InodePermission
  simp only [halias, hpath dentry, hsid, Bool.true_eq_false, if_false]
  by_cases hfits : (path dentry).render.length < 255
  · by_cases hskip : mp4ShouldSkipPath (Memory.ofText (path dentry).render) = true
    · simp [hfits, hskip]
    · simp [hfits, hskip, Int.not_lt.mpr hosid]
  · simp [hfits]

end KernelModules.AccessControl
