import KernelModules.AccessControl.SecurityLabels

/-!
# The hooks of the security module

The six hooks of `MP4/mp4.c` and `get_inode_sid`. What they call of the kernel is a parameter, the
structure `Vfs`; a memory allocation is an argument that says whether it succeeded, or what the
allocated buffer held before. Following a NULL pointer is a `Fault`.

What the results rely on is stated about a `Vfs` by name: `Renders` for `dentry_path`,
`ReadsExactly` for an attribute that is read with its terminator, `Stores` for one that is kept as
it was given.
-/

set_option autoImplicit false
set_option relaxedAutoImplicit false

namespace KernelModules.AccessControl

open Foundation

/-! ### Credentials, inodes and the kernel -/

/-- `struct mp4_security`. -/
@[ext] structure Mp4Security where
  mp4Flags : ℤ
  deriving DecidableEq

/-- `struct cred`, of which the hooks read the pointer `security`. -/
structure Cred where
  security : Option Mp4Security
  deriving DecidableEq

/-- A NULL pointer that a hook follows: the security structure of a credential, or a buffer. -/
inductive Fault
  | nullSecurity
  | nullBuffer
  deriving DecidableEq

/-- What the hooks use of the kernel. `dentryPath` is the string that `dentry_path` renders, none
where it returns an error. `getxattr` is the operation of the inode, none for a NULL pointer; it
gives the length and the buffer after the call. -/
structure Vfs (Inode Dentry : Type*) where
  dFindAlias : Inode → Option Dentry
  dentryPath : Dentry → ℕ → Option Text
  getxattr : Inode → Option (Dentry → Text → Memory → ℕ → ℤ × Memory)
  isReg : Inode → Bool
  isDir : Inode → Bool

/-- `ENOMEM`. -/
def enomem : ℤ := 12

/-- `EOPNOTSUPP`. -/
def eopnotsupp : ℤ := 95

variable {Inode Dentry : Type*}

/-! ### The label of an inode -/

/-- `get_inode_sid`. The argument `val` is what `kmalloc` gives for the buffer. -/
def getInodeSid (vfs : Vfs Inode Dentry) (inode : Inode) (val : Option Memory) : Except Fault ℤ :=
  match vfs.dFindAlias inode with
  | none => .ok 0
  | some bDentry =>
    match vfs.getxattr inode with
    | none => .ok (-1)
    | some getxattr =>
      match val with
      | none => .error .nullBuffer
      | some val => .ok (credCtxToSid (getxattr bDentry xattrNameMp4 val 255).2)

/-! ### Credentials -/

/-- `mp4_bprm_set_creds`: the returned number, and the credential after the call. -/
def mp4BprmSetCreds (vfs : Vfs Inode Dentry) (cred : Cred) (inode : Inode) (val : Option Memory) :
    Except Fault (ℤ × Cred) :=
  match getInodeSid vfs inode val with
  | .error fault => .error fault
  | .ok sid =>
    if 0 ≤ sid then
      match cred.security with
      | none => .error .nullSecurity
      | some msec => .ok (0, { cred with security := some { msec with mp4Flags := sid } })
    else .ok (0, cred)

/-- `mp4_cred_alloc_blank`: the returned number, and the credential after the call. -/
def mp4CredAllocBlank (cred : Cred) (kmalloc : Bool) : ℤ × Cred :=
  if kmalloc then (0, { cred with security := some ⟨mp4NoAccess⟩ }) else (-enomem, cred)

/-- `mp4_cred_free`. -/
def mp4CredFree (cred : Cred) : Cred := { cred with security := none }

/-- `mp4_cred_prepare`: the returned number, and the new credential after the call. The returned
number of `mp4_cred_alloc_blank` is not looked at. -/
def mp4CredPrepare (new old : Cred) (kmalloc : Bool) : ℤ × Cred :=
  match old.security with
  | none => (0, (mp4CredAllocBlank new kmalloc).2)
  | some oldMsec =>
    if kmalloc then (0, { new with security := some oldMsec }) else (-enomem, new)

/-! ### Inodes -/

/-- The outputs of `mp4_inode_init_security`: `*name`, `*value` and `*len`. -/
structure InitXattr where
  name : Option Text
  value : Option Text
  len : ℕ
  deriving DecidableEq

/-- Which of the pointers `name`, `value` and `len` are not NULL. -/
structure Wanted where
  name : Bool
  value : Bool
  len : Bool
  deriving DecidableEq

/-- `*value = kstrdup(label, GFP_NOFS)` and `*len = strlen(label)`. -/
def InitXattr.setLabel (out : InitXattr) (label : Text) (kstrdup : Bool) : InitXattr :=
  { out with value := if kstrdup then some label else none, len := label.length }

/-- `mp4_inode_init_security`: the returned number, and the outputs after the call. -/
def mp4InodeInitSecurity (vfs : Vfs Inode Dentry) (cs : Option Mp4Security) (inode : Inode)
    (wanted : Wanted) (kstrdup : Bool) (out : InitXattr) : Except Fault (ℤ × InitXattr) :=
  match cs with
  | none => .error .nullSecurity
  | some cs =>
    let out := if wanted.name then { out with name := some xattrMp4Suffix } else out
    if wanted.value && wanted.len then
      if cs.mp4Flags = mp4TargetSid then
        let out :=
          if vfs.isReg inode then out.setLabel (bytes "read-write") kstrdup
          else if vfs.isDir inode then out.setLabel (bytes "dir-write") kstrdup
          else out
        if out.value = none then .ok (-enomem, out) else .ok (0, out)
      else .ok (0, out)
    else .ok (-eopnotsupp, out)

/-- What `mp4_inode_permission` returns, and whether it has asked `mp4_has_permission`. -/
structure Verdict where
  perm : ℤ
  checked : Bool
  deriving DecidableEq

/-- The access that is granted without a check. -/
def unchecked : Verdict := ⟨0, false⟩

/-- `mp4_inode_permission`. The argument `buf` says whether `kmalloc` gave the buffer for the path,
and `val` is what it gives for the buffer of the attribute. -/
def mp4InodePermission (vfs : Vfs Inode Dentry) (cs : Option Mp4Security) (inode : Inode)
    (mask : UInt32) (buf : Bool) (val : Option Memory) : Except Fault Verdict :=
  match vfs.dFindAlias inode with
  | none => .ok unchecked
  | some bDentry =>
    if buf = false then .error .nullBuffer
    else
      match vfs.dentryPath bDentry (256 - 1) with
      | none => .ok unchecked
      | some res =>
        if mp4ShouldSkipPath (Memory.ofText res) then .ok unchecked
        else
          match cs with
          | none => .error .nullSecurity
          | some cs =>
            match getInodeSid vfs inode val with
            | .error fault => .error fault
            | .ok osid =>
              if osid < 0 then .ok unchecked
              else .ok
                ⟨mp4HasPermission cs.mp4Flags osid (mask &&& (mayRead ||| mayExec ||| mayWrite)),
                  true⟩

/-! ### What is assumed of the kernel -/

/-- A name in a directory: not empty, and without NUL and `/`. -/
structure Component where
  name : Text
  name_ne_nil : name ≠ []
  nul_not_mem : (0 : UInt8) ∉ name
  slash_not_mem : (47 : UInt8) ∉ name
  deriving DecidableEq

/-- A path from the root of its filesystem. -/
abbrev Path := List Component

/-- The text of a path. -/
def Path.render : Path → Text
  | [] => bytes "/"
  | path => path.flatMap fun component ↦ bytes "/" ++ component.name

/-- `dentry_path` renders the path when it fits into the buffer with its terminator. -/
def Vfs.Renders (vfs : Vfs Inode Dentry) (path : Dentry → Path) : Prop :=
  ∀ dentry buflen, vfs.dentryPath dentry buflen =
    if (path dentry).render.length < buflen then some (path dentry).render else none

/-- The attribute of the inode is read exactly into a buffer that held `val`: the buffer then holds
its text as a string, and the empty string when there is no attribute. -/
def Vfs.ReadsExactly (vfs : Vfs Inode Dentry) (inode : Inode) (dentry : Dentry) (val : Memory)
    (attr : Option Text) : Prop :=
  (0 : UInt8) ∉ attr.getD [] ∧ ∃ getxattr, vfs.getxattr inode = some getxattr ∧
    (getxattr dentry xattrNameMp4 val 255).2.Holds (attr.getD [])

/-- The attribute of the inode is the text, kept without a terminator: a read writes the text to the
start of the buffer and leaves the rest of it. -/
def Vfs.Stores (vfs : Vfs Inode Dentry) (inode : Inode) (dentry : Dentry) (text : Text) : Prop :=
  ∃ getxattr, vfs.getxattr inode = some getxattr ∧
    ∀ val, getxattr dentry xattrNameMp4 val 255 = ((text.length : ℤ), val.store text)

/-! ### A small filesystem -/

/-- A file with at most one dentry. -/
structure File where
  path : Path
  attr : Option Text
  directory : Bool
  linked : Bool
  hasGetxattr : Bool

/-- A regular file at a path, on a filesystem with attributes. -/
def labelledFile (path : Path) (attr : Option Text) : File where
  path := path
  attr := attr
  directory := false
  linked := true
  hasGetxattr := true

/-- The path `/home/notes`. -/
def homeNotes : Path :=
  [⟨bytes "home", by decide, by decide, by decide⟩,
    ⟨bytes "notes", by decide, by decide, by decide⟩]

/-- The path `/library/notes`. -/
def libraryNotes : Path :=
  [⟨bytes "library", by decide, by decide, by decide⟩,
    ⟨bytes "notes", by decide, by decide, by decide⟩]

/-- The kernel over files that keep their attributes as they were given. -/
def fileVfs : Vfs File File where
  dFindAlias := fun file ↦ if file.linked then some file else none
  dentryPath := fun file buflen ↦
    if file.path.render.length < buflen then some file.path.render else none
  getxattr := fun file ↦
    if file.hasGetxattr then some fun dentry _ val _ ↦
      (dentry.attr.elim (-61) fun text ↦ text.length, val.store (dentry.attr.getD []))
    else none
  isReg := fun file ↦ !file.directory
  isDir := fun file ↦ file.directory

/-- The paths of the small filesystem are rendered. -/
theorem fileVfs_renders : fileVfs.Renders File.path := fun _ _ ↦ rfl

/-- Into a zeroed buffer the attributes of the small filesystem are read exactly. -/
theorem fileVfs_readsExactly {file : File} (hget : file.hasGetxattr = true)
    (hattr : (0 : UInt8) ∉ file.attr.getD []) :
    fileVfs.ReadsExactly file file (fun _ ↦ 0) file.attr := by
  refine ⟨hattr, _, if_pos hget, ?_⟩
  exact (Memory.holds_store_iff _ _).mpr rfl

/-! ### What the hooks do -/

/-- The label of an inode whose attribute is read exactly. -/
theorem getInodeSid_of_readsExactly {vfs : Vfs Inode Dentry} {inode : Inode} {dentry : Dentry}
    {val : Memory} {attr : Option Text} (halias : vfs.dFindAlias inode = some dentry)
    (hread : vfs.ReadsExactly inode dentry val attr) :
    getInodeSid vfs inode (some val) = .ok (sidOf (attr.getD [])) := by
  obtain ⟨hattr, getxattr, hgetxattr, hholds⟩ := hread
  simp only [getInodeSid, halias, hgetxattr, credCtxToSid_of_holds hholds hattr]

/-- The label of an inode whose attribute is stored without a terminator is read off the buffer. -/
theorem getInodeSid_of_stores {vfs : Vfs Inode Dentry} {inode : Inode} {dentry : Dentry}
    {text : Text} (halias : vfs.dFindAlias inode = some dentry)
    (hstores : vfs.Stores inode dentry text) (val : Memory) :
    getInodeSid vfs inode (some val) = .ok (credCtxToSid (val.store text)) := by
  obtain ⟨getxattr, hgetxattr, hval⟩ := hstores
  simp only [getInodeSid, halias, hgetxattr, hval]

end KernelModules.AccessControl
