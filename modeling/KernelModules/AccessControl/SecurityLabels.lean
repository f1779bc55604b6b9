import KernelModules.Foundation.CString

/-!
# Security labels

The labels of `MP4/mp4_given.h`: their numbers, the attribute texts that name them
(`credCtxToSid`), the paths that are left alone (`mp4ShouldSkipPath`), and `mp4_has_permission` of
`MP4/mp4.c`, the table that decides an access.
-/

set_option autoImplicit false
set_option relaxedAutoImplicit false

namespace KernelModules.AccessControl

open Foundation

/-! ### Labels and their numbers -/

/-- `XATTR_MP4_SUFFIX`. -/
def xattrMp4Suffix : Text := bytes "mp4"

/-- `XATTR_NAME_MP4`: `XATTR_SECURITY_PREFIX` and the suffix. -/
def xattrNameMp4 : Text := bytes "security." ++ xattrMp4Suffix

/-- `MP4_NO_ACCESS`. -/
def mp4NoAccess : ℤ := 0

/-- `MP4_READ_OBJ`. -/
def mp4ReadObj : ℤ := 1

/-- `MP4_READ_WRITE`. -/
def mp4ReadWrite : ℤ := 2

/-- `MP4_WRITE_OBJ`. -/
def mp4WriteObj : ℤ := 3

/-- `MP4_EXEC_OBJ`. -/
def mp4ExecObj : ℤ := 4

/-- `MP4_READ_DIR`. -/
def mp4ReadDir : ℤ := 5

/-- `MP4_RW_DIR`. -/
def mp4RwDir : ℤ := 6

/-- `MP4_TARGET_SID`. -/
def mp4TargetSid : ℤ := 7

/-- `__cred_ctx_to_sid`: the number of the label that the buffer names. -/
def credCtxToSid (credCtx : Memory) : ℤ :=
  if strcmp credCtx (bytes "read-only") = 0 then mp4ReadObj
  else if strcmp credCtx (bytes "read-write") = 0 then mp4ReadWrite
  else if strcmp credCtx (bytes "exec") = 0 then mp4ExecObj
  else if strcmp credCtx (bytes "target") = 0 then mp4TargetSid
  else if strcmp credCtx (bytes "write-only") = 0 then mp4WriteObj
  else if strcmp credCtx (bytes "dir") = 0 then mp4ReadDir
  else if strcmp credCtx (bytes "dir-write") = 0 then mp4RwDir
  else mp4NoAccess

/-- The number of the label with the given text. -/
def sidOf (text : Text) : ℤ :=
  if text = bytes "read-only" then mp4ReadObj
  else if text = bytes "read-write" then mp4ReadWrite
  else if text = bytes "exec" then mp4ExecObj
  else if text = bytes "target" then mp4TargetSid
  else if text = bytes "write-only" then mp4WriteObj
  else if text = bytes "dir" then mp4ReadDir
  else if text = bytes "dir-write" then mp4RwDir
  else mp4NoAccess

/-- Of a buffer that holds a text, the comparison with a literal is one of the text. -/
theorem strcmp_eq_zero_iff_of_holds {mem : Memory} {text literal : Text} (hholds : mem.Holds text)
    (htext : (0 : UInt8) ∉ text) (hliteral : (0 : UInt8) ∉ literal) :
    strcmp mem literal = 0 ↔ text = literal := by
  rw [strcmp_eq_zero_iff]
  constructor
  · intro hother
    exact hholds.unique hother htext hliteral
  · intro heq
    exact heq ▸ hholds

/-- A buffer that holds a text names the label with that text. -/
theorem credCtxToSid_of_holds {mem : Memory} {text : Text} (hholds : mem.Holds text)
    (htext : (0 : UInt8) ∉ text) : credCtxToSid mem = sidOf text := by
  have hcmp : ∀ literal, (0 : UInt8) ∉ literal → (strcmp mem literal = 0 ↔ text = literal) :=
    fun _ hliteral ↦ strcmp_eq_zero_iff_of_holds hholds htext hliteral
  unfold credCtxToSid sidOf
  simp (disch := decide) only [hcmp]

/-- The texts that name a label. -/
def labelTexts : List Text :=
  [bytes "read-only", bytes "read-write", bytes "exec", bytes "target", bytes "write-only",
    bytes "dir", bytes "dir-write"]

/-- A buffer that holds none of the texts names no label. -/
theorem credCtxToSid_of_forall_not {mem : Memory}
    (hnone : ∀ text ∈ labelTexts, ¬ mem.Holds text) : credCtxToSid mem = mp4NoAccess := by
  have hne : ∀ text ∈ labelTexts, strcmp mem text ≠ 0 :=
    fun text htext hzero ↦ hnone text htext ((strcmp_eq_zero_iff mem text).mp hzero)
  unfold credCtxToSid
  simp (disch := decide) only [hne, if_false]

/-- A text that begins no label but itself, written without a terminator, names its label when the
byte after it was NUL, and no label when it was not. -/
theorem credCtxToSid_store {text : Text} (hnul : (0 : UInt8) ∉ text)
    (honly : ∀ other ∈ labelTexts, text <+: other → other = text) (val : Memory) :
    credCtxToSid (val.store text) = if val text.length = 0 then sidOf text else mp4NoAccess := by
  split_ifs with hterminated
  · exact credCtxToSid_of_holds ((Memory.holds_store_iff val text).mpr hterminated) hnul
  · refine credCtxToSid_of_forall_not fun other hother hholds ↦ hterminated ?_
    rw [honly other hother (hholds.begins_of_store hnul)] at hholds
    exact (Memory.holds_store_iff val text).mp hholds

/-- Only one text has the number of the target label. -/
theorem sidOf_eq_target_iff (text : Text) : sidOf text = mp4TargetSid ↔ text = bytes "target" := by
  constructor
  · intro hsid
    by_contra hne
    revert hsid
    unfold sidOf
    rw [if_neg hne]
    split_ifs <;> decide
  · intro heq
    rw [heq]
    decide

/-! ### Paths that are left alone -/

/-- The literals of `mp4_should_skip_path`, with the number of bytes it compares. -/
def skippedDirs : List (Text × ℕ) :=
  [(bytes "/dev", 4), (bytes "/proc", 5), (bytes "/lib", 4), (bytes "/events", 7),
    (bytes "/mnt", 4), (bytes "/run", 4), (bytes "/lvm", 4), (bytes "/conf", 5),
    (bytes "/usr", 4), (bytes "/bin", 4)]

/-- `mp4_should_skip_path`. -/
def mp4ShouldSkipPath (dir : Memory) : Bool :=
  (skippedDirs.any fun skipped ↦ strncmp dir skipped.1 skipped.2 = 0) || strcmp dir (bytes "/") = 0

/-- The comparisons of `mp4_should_skip_path` are over the length of the literal. -/
theorem skippedDirs_length {skipped : Text × ℕ} (hskipped : skipped ∈ skippedDirs) :
    skipped.2 = skipped.1.length ∧ (0 : UInt8) ∉ skipped.1 := by
  have hall : ∀ skipped ∈ skippedDirs, skipped.2 = skipped.1.length ∧ (0 : UInt8) ∉ skipped.1 := by
    decide
  exact hall skipped hskipped

/-- A path is skipped when it is the root or begins with the bytes of a literal. -/
theorem mp4ShouldSkipPath_ofText {path : Text} (hpath : (0 : UInt8) ∉ path) :
    mp4ShouldSkipPath (Memory.ofText path) = true ↔
      path = bytes "/" ∨ ∃ skipped ∈ skippedDirs, skipped.1 <+: path := by
  rw [mp4ShouldSkipPath, Bool.or_eq_true, decide_eq_true_iff,
    strcmp_eq_zero_iff_of_holds (Memory.holds_ofText path) hpath (by decide), List.any_eq_true,
    or_comm]
  refine or_congr_right (exists_congr fun skipped ↦ and_congr_right fun hskipped ↦ ?_)
  obtain ⟨hlength, hnul⟩ := skippedDirs_length hskipped
  rw [decide_eq_true_iff, hlength, strncmp_eq_zero_iff _ hnul, Memory.starts_ofText_iff hnul]

/-! ### The decision -/

/-- `MAY_EXEC`. -/
def mayExec : UInt32 := 1

/-- `MAY_WRITE`. -/
def mayWrite : UInt32 := 2

/-- `MAY_READ`. -/
def mayRead : UInt32 := 4

/-- `EACCES`. -/
def eacces : ℤ := 13

/-- `o_mask` of `mp4_has_permission`: the operations that the subject may use on the object. -/
def oMask (ssid osid : ℤ) : UInt32 :=
  if ssid = mp4TargetSid then
    if osid = mp4ReadObj then mayRead
    else if osid = mp4ReadWrite then mayRead ||| mayWrite
    else if osid = mp4WriteObj then mayWrite
    else if osid = mp4ExecObj then mayRead ||| mayExec
    else if osid = mp4ReadDir then mayRead ||| mayExec
    else if osid = mp4RwDir then mayRead ||| mayExec ||| mayWrite
    else 0
  else
    if osid = mp4ReadObj ∨ osid = mp4ReadWrite ∨ osid = mp4WriteObj then mayRead
    else if osid = mp4NoAccess then mayRead ||| mayWrite ||| mayExec
    else if osid = mp4ExecObj then mayRead ||| mayExec
    else if osid = mp4ReadDir ∨ osid = mp4RwDir then mayRead ||| mayExec
    else 0

/-- `mp4_has_permission`. -/
def mp4HasPermission (ssid osid : ℤ) (mask : UInt32) : ℤ :=
  if mask ||| oMask ssid osid = oMask ssid osid then 0 else -eacces

end KernelModules.AccessControl
