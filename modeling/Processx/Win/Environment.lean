import Processx.Win.SearchPath
import Processx.Library.TableMerge
import Mathlib.Algebra.Order.BigOperators.Group.List
import Mathlib.Algebra.Order.Group.Nat
import Mathlib.Algebra.GroupWithZero.Nat
import Mathlib.Data.List.Lex

/-!
# The environment of a new process on Windows

A Windows process gets its environment as one block of `NAME=value` texts in the order of their
upper case names. `processx__make_program_env()` converts the texts that it is given and the tree
id, sorts them, and merges into them a table of variables that every process needs. A first loop
over both counts the characters of the block, and a second one writes them.
-/

namespace Processx

/-- `'='` -/
def equalSign : UInt8 := 61

/-- `L'='` -/
def wEqual : WChar := 61

/-- The characters of a wide string literal. -/
def wide (literal : String) : List WChar := literal.toList.map fun c => c.toNat.toUInt16

/-- The bytes of a string literal. -/
def bytes (literal : String) : List UInt8 := literal.toList.map fun c => c.toNat.toUInt8

/-- What goes wrong. -/
inductive EnvError where
  /-- The code of `GetLastError()` is returned. -/
  | lastError
  /-- `R_THROW_SYSTEM_ERROR(message)` -/
  | systemError (message : String)
  /-- A null pointer is used, or an array element that was not set. -/
  | undefined
  deriving DecidableEq

/-- What the function asks Windows and the C library. -/
structure EnvSystem where
  /-- The characters that `MultiByteToWideChar()` makes of a text. -/
  toWide : List UInt8 → List WChar
  /-- What `LCMapStringW()` makes of a text with `LCMAP_UPPERCASE`: nothing if it fails. -/
  upper : List WChar → List WChar
  /-- The environment of the parent. -/
  getenv : List WChar → Option (List WChar)
  /-- `qsort()` -/
  qsort : (List WChar → List WChar → Except EnvError ℤ) → List (List WChar) →
    Except EnvError (List (List WChar))
  /-- The text at a place of a new buffer where nothing was written. -/
  fresh : ℕ → List WChar

/-- `MultiByteToWideChar(CP_UTF8, 0, text, -1, target, room)`: the number of characters, with the
`NUL`, and those at the target. Without any room it counts, and it fails if there is too little. -/
def EnvSystem.multiByteToWideChar (sys : EnvSystem) (text : List UInt8) (target : ℕ) (room : ℤ) :
    Except EnvError (ℕ × List WChar) :=
  let len := (sys.toWide text).length + 1
  if 2 ^ 31 ≤ len then .error .lastError
  else if room = 0 then .ok (len, sys.fresh target)
  else if room < len then .error .lastError
  else .ok (len, sys.toWide text)

/-- `GetEnvironmentVariableW(name, target, size)`: a number of characters, and those it writes. The
number includes the `NUL` only if there is too little room. -/
def EnvSystem.getEnvironmentVariable (sys : EnvSystem) (name : List WChar) (size : ℕ) :
    ℕ × List WChar :=
  match sys.getenv name with
  | none => (0, [])
  | some value =>
    if value.length < size then (value.length, value ++ [0]) else (value.length + 1, [])

/-- `env_var_t` -/
structure EnvVar where
  wide : List WChar
  wideEq : List WChar
  /-- including null or `=` -/
  len : ℕ
  deriving DecidableEq

/-- `E_V(str)` -/
def envVar (str : String) : EnvVar := ⟨wide str, wide str ++ [wEqual], str.length + 1⟩

/-- `required_vars` -/
def requiredVars : List EnvVar :=
  [envVar "HOMEDRIVE", envVar "HOMEPATH", envVar "LOGONSERVER", envVar "PATH",
    envVar "SYSTEMDRIVE", envVar "SYSTEMROOT", envVar "TEMP", envVar "USERDOMAIN",
    envVar "USERNAME", envVar "USERPROFILE", envVar "WINDIR"]

/-- The loop of `env_strncmp()`. There is a `NUL` behind both texts. -/
def compareUpper : List WChar → List WChar → ℤ
  | [], [] => 0
  | [], BB :: _ => if 0 < BB then -1 else 0
  | AA :: _, [] => if 0 < AA then 1 else 0
  | AA :: A, BB :: B =>
    if AA < BB then -1 else if BB < AA then 1 else if AA = 0 then 0 else compareUpper A B

/-- A name in upper case, which is an error if there is nothing to map. -/
def EnvSystem.upperCase (sys : EnvSystem) (name : List WChar) : Except EnvError (List WChar) :=
  if sys.upper name = [] then .error (.systemError "make environment for process")
  else .ok (sys.upper name)

/-- `wcschr(text, L'=') - text` -/
def nameLength (text : List WChar) : Except EnvError ℕ :=
  match wcschr text 0 wEqual with
  | none => .error .undefined
  | some eq => .ok eq

/-- `na`, as `env_strncmp()` uses it. No number of characters is `-1` in the source. -/
def firstLength (a : List WChar) : Option ℕ → Except EnvError ℕ
  | none => nameLength a
  | some na => .ok (na - 1)

/-- `env_strncmp()` -/
def EnvSystem.envStrncmp (sys : EnvSystem) (a : List WChar) (na : Option ℕ) (b : List WChar) :
    Except EnvError ℤ := do
  let na ← firstLength a na
  let nb ← nameLength b
  let A ← sys.upperCase (a.take na)
  let B ← sys.upperCase (b.take nb)
  return compareUpper A B

/-- `qsort_wcscmp()` -/
def EnvSystem.qsortWcscmp (sys : EnvSystem) (a b : List WChar) : Except EnvError ℤ :=
  sys.envStrncmp a none b

/-- The first pass: the size in UTF-16. -/
def EnvSystem.firstPass (sys : EnvSystem) : List (List UInt8) → Except EnvError ℕ
  | [] => .ok 0
  | env :: rest => do
    let (len, _) ← sys.multiByteToWideChar env 0 0
    let envLen ← sys.firstPass rest
    return len + envLen

/-- `(int) (env_len - (ptr - dst))` -/
def roomAt (envLen ptr : ℕ) : ℤ := ((envLen : ℤ) - ptr).bmod (2 ^ 32)

/-- An `int` as a `DWORD`. -/
def toDword (n : ℤ) : ℕ := (n % 2 ^ 32).toNat

/-- The second pass: it copies, and keeps a pointer to each text. -/
def EnvSystem.secondPass (sys : EnvSystem) (envLen : ℕ) :
    ℕ → List (List UInt8) → Except EnvError (List (List WChar))
  | _, [] => .ok []
  | ptr, env :: rest => do
    let (len, text) ← sys.multiByteToWideChar env ptr (roomAt envLen ptr)
    let envCopy ← sys.secondPass envLen (ptr + len) rest
    return text :: envCopy

/-- `cmp` of the third and the final pass, if there is a required variable left. -/
def EnvSystem.compareNext (sys : EnvSystem) (v : EnvVar) : List (List WChar) → Except EnvError ℤ
  | [] => .ok (-1)
  | env :: _ => sys.envStrncmp v.wideEq (some v.len) env

/-- The third pass: it checks for required variables. It adds up the size and fills
`required_vars_value_len`, which stays as it is where the variable is not missing. -/
def EnvSystem.thirdPass (sys : EnvSystem) (vars : List EnvVar) (envCopy : List (List WChar))
    (envLen : ℕ) : Except EnvError (ℕ × List (Option ℕ)) :=
  match vars with
  | [] => .ok (envLen, [])
  | v :: vars => do
    let cmp ← sys.compareNext v envCopy
    if cmp < 0 then
      -- missing required var
      let varSize := (sys.getEnvironmentVariable v.wide 0).1
      let envLen := if varSize ≠ 0 then envLen + v.len + varSize else envLen
      let (envLen, valueLen) ← sys.thirdPass vars envCopy envLen
      return (envLen, some varSize :: valueLen)
    else
      match envCopy with
      | [] => .error .undefined
      | _ :: envCopy =>
        if cmp = 0 then
          let (envLen, valueLen) ← sys.thirdPass vars envCopy envLen
          return (envLen, none :: valueLen)
        else sys.thirdPass (v :: vars) envCopy envLen
  termination_by vars.length + envCopy.length

/-- What the final pass does for a missing row: the characters that are written then. Those that are
written so far end at the pointer. -/
def EnvSystem.copyRequired (sys : EnvSystem) (cname : String) (envLen : ℕ) (v : EnvVar)
    (dst : List WChar) : Option ℕ → Except EnvError (List WChar)
  | none => .error .undefined
  | some len =>
    if len ≠ 0 then
      let dst := dst ++ v.wideEq
      let (varSize, value) :=
        sys.getEnvironmentVariable v.wide (toDword (roomAt envLen dst.length))
      if varSize ≠ len - 1 then
        -- race condition?
        .error (.systemError ("GetEnvironmentVariableW for process '" ++ cname ++ "'"))
      else .ok (dst ++ value)
    else .ok dst

/-- The final pass: it copies, in sort order, and inserts required variables. -/
def EnvSystem.finalPass (sys : EnvSystem) (cname : String) (envLen : ℕ)
    (vars : List (EnvVar × Option ℕ)) (envCopy : List (List WChar)) (dst : List WChar) :
    Except EnvError (List WChar) :=
  match vars, envCopy with
  | [], [] => .ok dst
  | [], env :: envCopy => sys.finalPass cname envLen [] envCopy (dst ++ (env ++ [0]))
  | (v, valueLen) :: vars, envCopy => do
    let cmp ← sys.compareNext v envCopy
    if cmp < 0 then
      let dst ← sys.copyRequired cname envLen v dst valueLen
      sys.finalPass cname envLen vars envCopy dst
    else
      -- copy var from env_block
      match envCopy with
      | [] => .error .undefined
      | env :: envCopy =>
        let dst := dst ++ (env ++ [0])
        if cmp = 0 then sys.finalPass cname envLen vars envCopy dst
        else sys.finalPass cname envLen ((v, valueLen) :: vars) envCopy dst
  termination_by vars.length + envCopy.length

/-- What the function computes: the size from the third pass, and the block. -/
structure ProgramEnv where
  envLen : ℕ
  dst : List WChar
  deriving DecidableEq

/-- `processx__make_program_env()`. A text without a `=` is left out. The tree id comes last. -/
def EnvSystem.makeProgramEnv (sys : EnvSystem) (envBlock : List (List UInt8))
    (treeId : List UInt8) (cname : String) : Except EnvError ProgramEnv := do
  let envs := envBlock.filter (equalSign ∈ ·) ++ [treeId]
  let envLen ← sys.firstPass envs
  let envCopy ← sys.secondPass envLen 0 envs
  let envCopy ← sys.qsort sys.qsortWcscmp envCopy
  let (envLen, valueLen) ← sys.thirdPass requiredVars envCopy envLen
  let dst ← sys.finalPass cname envLen (requiredVars.zip valueLen) envCopy []
  -- terminate with an extra NUL
  return ⟨envLen, dst ++ [0]⟩

/-- `-1`, `0` or `1`, as the first list is before, equal to or behind the second. -/
def listSign (a b : List ℕ) : ℤ := if a < b then -1 else if b < a then 1 else 0

/-- The documented behaviour of the functions of Windows and of `qsort()`. -/
structure EnvSystem.Documented (sys : EnvSystem) : Prop where
  /-- Only the empty text is converted to nothing. -/
  toWide_eq_nil : ∀ text, sys.toWide text = [] ↔ text = []
  /-- A byte of ASCII is a character of its own, whatever stands around it. -/
  toWide_ascii : ∀ a c b, c < 128 →
    sys.toWide (a ++ c :: b) = sys.toWide a ++ c.toUInt16 :: sys.toWide b
  /-- A character of ASCII comes from its byte. -/
  mem_of_toWide : ∀ text c, c < 128 → c.toUInt16 ∈ sys.toWide text → c ∈ text
  /-- Upper case has as many characters. -/
  upper_length : ∀ text, (sys.upper text).length = text.length
  /-- A capital letter of ASCII stays as it is. -/
  upper_cons : ∀ c text, 65 ≤ c → c ≤ 90 → sys.upper (c :: text) = c :: sys.upper text
  /-- Upper case of a character is not `NUL`. -/
  zero_notMem_upper : ∀ text, 0 ∉ text → 0 ∉ sys.upper text
  /-- A value ends at its `NUL`, and has at most 32767 characters with it. -/
  getenv_value : ∀ name value, sys.getenv name = some value → 0 ∉ value ∧ value.length < 32767
  /-- Elements that a comparison puts into an order are sorted. -/
  qsort_sorts : ∀ (cmp : List WChar → List WChar → Except EnvError ℤ) (key : List WChar → List ℕ)
    (base : List (List WChar)), (∀ a ∈ base, ∀ b ∈ base, cmp a b = .ok (listSign (key a) (key b))) →
    ∃ sorted, sys.qsort cmp base = .ok sorted ∧ sorted.Perm base ∧
      sorted.Pairwise (key · ≤ key ·)

/-- The name of a wide text `NAME=value`. -/
def nameOf (text : List WChar) : List WChar := text.take (text.idxOf wEqual)

/-- A wide text `NAME=value` with a name. -/
structure IsEntry (text : List WChar) : Prop where
  zero_notMem : 0 ∉ text
  equal_mem : wEqual ∈ text
  name_ne_nil : nameOf text ≠ []

/-- The name of a text is what stands before its first equals sign. -/
theorem nameOf_append {name : List WChar} (value : List WChar) (h : wEqual ∉ name) :
    nameOf (name ++ wEqual :: value) = name := by
  rw [nameOf, List.idxOf_append_of_notMem h, List.idxOf_cons_self, Nat.add_zero, List.take_left]

/-- The length of a name is found if there is an equals sign. -/
theorem nameLength_eq {text : List WChar} (h : wEqual ∈ text) :
    nameLength text = .ok (text.idxOf wEqual) := by
  have hfound : wcschr text 0 wEqual = some (text.idxOf wEqual) := by
    rw [wcschr, List.drop_zero, if_pos (Or.inl (List.idxOf_lt_length_of_mem h)), Nat.zero_add]
  rw [nameLength, hfound]

/-- The codes of some characters. -/
def codes (text : List WChar) : List ℕ := text.map UInt16.toNat

/-- A character that is not zero is positive. -/
theorem pos_of_ne_zero {c : WChar} (h : 0 ≠ c) : 0 < c := by
  rw [UInt16.lt_iff_toNat_lt]
  exact Nat.pos_of_ne_zero fun hc => h (UInt16.toNat_inj.mp hc.symm)

/-- The first characters decide, unless they are equal. -/
theorem listSign_cons (a b : ℕ) (as bs : List ℕ) :
    listSign (a :: as) (b :: bs) =
      if a < b then -1 else if b < a then 1 else listSign as bs := by
  unfold listSign
  simp only [List.cons_lt_cons_iff]
  rcases lt_trichotomy a b with h | rfl | h
  · simp [h]
  · simp
  · simp [h, h.not_gt, h.ne, h.ne']

/-- Characters are compared as their codes. -/
theorem compareUpper_eq {A B : List WChar} (hA : 0 ∉ A) (hB : 0 ∉ B) :
    compareUpper A B = listSign (codes A) (codes B) := by
  induction A generalizing B with
  | nil =>
    cases B with
    | nil => rfl
    | cons BB B =>
      rw [compareUpper, if_pos (pos_of_ne_zero (List.ne_of_not_mem_cons hB))]
      exact (if_pos (List.nil_lt_cons _ _)).symm
  | cons AA A ih =>
    cases B with
    | nil =>
      rw [compareUpper, if_pos (pos_of_ne_zero (List.ne_of_not_mem_cons hA)), codes, List.map_cons]
      rfl
    | cons BB B =>
      have hAA : AA ≠ 0 := (List.ne_of_not_mem_cons hA).symm
      have hrest := ih (List.not_mem_of_not_mem_cons hA) (List.not_mem_of_not_mem_cons hB)
      simp only [compareUpper, codes, List.map_cons, listSign_cons, UInt16.lt_iff_toNat_lt,
        if_neg hAA, hrest]

section

variable {sys : EnvSystem} (documented : sys.Documented)

/-- The upper case name of a text, by which the block is sorted. -/
def EnvSystem.upperName (sys : EnvSystem) (text : List WChar) : List ℕ :=
  codes (sys.upper (nameOf text))

include documented

/-- A name that is not empty can be converted to upper case. -/
theorem upperCase_eq {name : List WChar} (h : name ≠ []) :
    sys.upperCase name = .ok (sys.upper name) := by
  have hne : sys.upper name ≠ [] := by
    rw [← List.length_pos_iff, documented.upper_length]
    exact List.length_pos_iff.mpr h
  rw [EnvSystem.upperCase, if_neg hne]

/-- `env_strncmp()` compares the upper case names. -/
theorem envStrncmp_eq {a b : List WChar} {na : Option ℕ} {n : ℕ} (hna : firstLength a na = .ok n)
    (hne : a.take n ≠ []) (hzero : 0 ∉ a.take n) (hb : IsEntry b) :
    sys.envStrncmp a na b = .ok (listSign (codes (sys.upper (a.take n))) (sys.upperName b)) := by
  have hbzero : 0 ∉ nameOf b := fun h => hb.zero_notMem (List.mem_of_mem_take h)
  have hb' : b.take (b.idxOf wEqual) = nameOf b := rfl
  rw [EnvSystem.envStrncmp, hna]
  show (nameLength b >>= fun nb => _) = _
  rw [nameLength_eq hb.equal_mem]
  show (sys.upperCase (a.take n) >>= fun A => sys.upperCase (b.take _) >>= fun B => _) = _
  rw [upperCase_eq documented hne, hb', upperCase_eq documented hb.name_ne_nil]
  exact congrArg Except.ok (compareUpper_eq (documented.zero_notMem_upper _ hzero)
    (documented.zero_notMem_upper _ hbzero))

/-- Two texts are compared by their upper case names. -/
theorem qsortWcscmp_eq {a b : List WChar} (ha : IsEntry a) (hb : IsEntry b) :
    sys.qsortWcscmp a b = .ok (listSign (sys.upperName a) (sys.upperName b)) :=
  envStrncmp_eq documented (nameLength_eq ha.equal_mem) ha.name_ne_nil
    (fun h => ha.zero_notMem (List.mem_of_mem_take h)) hb

/-- A row of the table is a name in capital letters. -/
structure IsRow (v : EnvVar) : Prop where
  wide_ne_nil : v.wide ≠ []
  capital : ∀ c ∈ v.wide, 65 ≤ c ∧ c ≤ 90
  wideEq_eq : v.wideEq = v.wide ++ [wEqual]
  len_eq : v.len = v.wide.length + 1

omit documented in
/-- All required variables are well formed. -/
theorem isRow_requiredVars : ∀ v ∈ requiredVars, IsRow v := by
  have h : ∀ v ∈ requiredVars, v.wide ≠ [] ∧ v.wide.all (fun c => 65 ≤ c ∧ c ≤ 90) = true ∧
      v.wideEq = v.wide ++ [wEqual] ∧ v.len = v.wide.length + 1 := by decide
  intro v hv
  obtain ⟨hne, hcapital, heq, hlen⟩ := h v hv
  exact ⟨hne, fun c hc => of_decide_eq_true (List.all_eq_true.mp hcapital c hc), heq, hlen⟩

/-- The name of a row, by which the table is sorted. -/
def rowName (v : EnvVar) : List ℕ := codes v.wide

omit documented in
/-- keep me sorted -/
theorem sorted_requiredVars : requiredVars.Pairwise (rowName · < rowName ·) := by
  decide

/-- The name of a row is in upper case already. -/
theorem upper_row {v : EnvVar} (hv : IsRow v) : sys.upper v.wide = v.wide := by
  have hall : ∀ text : List WChar, (∀ c ∈ text, 65 ≤ c ∧ c ≤ 90) → sys.upper text = text := by
    intro text htext
    induction text with
    | nil => exact List.length_eq_zero_iff.mp (documented.upper_length [])
    | cons c text ih =>
      obtain ⟨hc, htext⟩ := List.forall_mem_cons.mp htext
      rw [documented.upper_cons c text hc.1 hc.2, ih htext]
  exact hall v.wide hv.capital

/-- The next required variable is compared with the name of the next entry. -/
theorem compareNext_cons {v : EnvVar} (hv : IsRow v) {env : List WChar} (henv : IsEntry env)
    (envCopy : List (List WChar)) :
    sys.compareNext v (env :: envCopy) = .ok (listSign (rowName v) (sys.upperName env)) := by
  have hname : v.wideEq.take v.wide.length = v.wide := by rw [hv.wideEq_eq, List.take_left]
  have hlen : firstLength v.wideEq (some v.len) = .ok v.wide.length := by
    rw [firstLength, hv.len_eq, Nat.add_sub_cancel]
  have hzero : 0 ∉ v.wide := fun h => absurd (hv.capital 0 h).1 (by decide)
  have hcompare := envStrncmp_eq documented hlen (by rw [hname]; exact hv.wide_ne_nil)
    (by rwa [hname]) henv
  rwa [hname, upper_row documented hv] at hcompare

/-- A row before the next text is missing, and so is one behind the last text. -/
theorem compareNext_missing {v : EnvVar} (hv : IsRow v) {envCopy : List (List WChar)}
    (hentries : ∀ env ∈ envCopy, IsEntry env)
    (h : ∀ env ∈ envCopy.head?, rowName v < sys.upperName env) :
    sys.compareNext v envCopy = .ok (-1) := by
  cases envCopy with
  | nil => rfl
  | cons env envCopy =>
    rw [compareNext_cons documented hv (hentries env List.mem_cons_self), listSign,
      if_pos (h env rfl)]

/-- What is written for a step of the merge. -/
def EnvSystem.written (sys : EnvSystem) : EnvVar ⊕ List WChar → List WChar
  | .inl v =>
    match sys.getenv v.wide with
    | none => []
    | some value => v.wideEq ++ value ++ [0]
  | .inr env => env ++ [0]

/-- The characters that the third pass adds for a row that is missing. -/
def EnvSystem.valueSize (sys : EnvSystem) (v : EnvVar) : ℕ :=
  (sys.getEnvironmentVariable v.wide 0).1

omit documented in
/-- A variable that is not set has no size. -/
theorem valueSize_of_none {v : EnvVar} (h : sys.getenv v.wide = none) : sys.valueSize v = 0 := by
  rw [EnvSystem.valueSize, EnvSystem.getEnvironmentVariable, h]

omit documented in
/-- One that is set has the size of its value, with the terminator. -/
theorem valueSize_of_some {v : EnvVar} {value : List WChar}
    (h : sys.getenv v.wide = some value) : sys.valueSize v = value.length + 1 := by
  rw [EnvSystem.valueSize, EnvSystem.getEnvironmentVariable, h]
  rfl

omit documented in
/-- A variable that is not set is not written. -/
theorem written_of_none {v : EnvVar} (h : sys.getenv v.wide = none) :
    sys.written (.inl v) = [] := by
  rw [EnvSystem.written, h]

omit documented in
/-- One that is set is written with its name, its value and the terminator. -/
theorem written_of_some {v : EnvVar} {value : List WChar} (h : sys.getenv v.wide = some value) :
    sys.written (.inl v) = v.wideEq ++ value ++ [0] := by
  rw [EnvSystem.written, h]

omit documented in
/-- The length of a required variable is that of its name with the equals sign. -/
theorem IsRow.length_wideEq {v : EnvVar} (hv : IsRow v) : v.wideEq.length = v.len := by
  rw [hv.wideEq_eq, hv.len_eq, List.length_append, List.length_singleton]

omit documented in
/-- The size that the third pass adds is that of what is written. -/
theorem size_written {v : EnvVar} (hv : IsRow v) (envLen : ℕ) :
    (if sys.valueSize v ≠ 0 then envLen + v.len + sys.valueSize v else envLen) =
      envLen + (sys.written (.inl v)).length := by
  cases hvalue : sys.getenv v.wide with
  | none => rw [valueSize_of_none hvalue, written_of_none hvalue, if_neg (not_not.mpr rfl)]; rfl
  | some value =>
    rw [valueSize_of_some hvalue, written_of_some hvalue, if_pos (Nat.succ_ne_zero _),
      List.length_append, List.length_append, hv.length_wideEq, List.length_singleton]
    omega

/-- The third pass counts what the final pass writes for a missing row. -/
theorem thirdPass_missing {v : EnvVar} (hv : IsRow v) {vars : List EnvVar}
    {envCopy : List (List WChar)} (hentries : ∀ env ∈ envCopy, IsEntry env)
    (h : ∀ env ∈ envCopy.head?, rowName v < sys.upperName env) (envLen : ℕ) :
    sys.thirdPass (v :: vars) envCopy envLen =
      (sys.thirdPass vars envCopy (envLen + (sys.written (.inl v)).length)).map fun r =>
        (r.1, some (sys.valueSize v) :: r.2) := by
  rw [EnvSystem.thirdPass, compareNext_missing documented hv hentries h, ← size_written hv]
  rfl

omit documented in
/-- The room behind a position does not overflow. -/
theorem toDword_roomAt {envLen ptr : ℕ} (hptr : ptr ≤ envLen) (hlen : envLen < 2 ^ 32) :
    toDword (roomAt envLen ptr) = envLen - ptr := by
  have hcast : roomAt envLen ptr % 2 ^ 32 = ((envLen : ℤ) - ptr) % 2 ^ 32 := Int.bmod_emod
  rw [toDword, hcast, Int.emod_eq_of_lt (by omega) (by omega)]
  omega

omit documented in
/-- There is room for the value of a missing row, which is written behind its name. -/
theorem copyRequired_eq {v : EnvVar} (cname : String) {envLen : ℕ}
    {dst : List WChar} (hroom : dst.length + (sys.written (.inl v)).length ≤ envLen)
    (hlen : envLen < 2 ^ 32) :
    sys.copyRequired cname envLen v dst (some (sys.valueSize v)) =
      .ok (dst ++ sys.written (.inl v)) := by
  cases hvalue : sys.getenv v.wide with
  | none =>
    rw [valueSize_of_none hvalue, written_of_none hvalue, List.append_nil]
    rfl
  | some value =>
    rw [written_of_some hvalue] at hroom ⊢
    rw [List.length_append, List.length_append, List.length_singleton] at hroom
    have hsize : toDword (roomAt envLen (dst ++ v.wideEq).length) =
        envLen - (dst ++ v.wideEq).length :=
      toDword_roomAt (by rw [List.length_append]; omega) hlen
    have hfits : value.length < envLen - (dst ++ v.wideEq).length := by
      rw [List.length_append]
      omega
    rw [valueSize_of_some hvalue, EnvSystem.copyRequired, if_pos (Nat.succ_ne_zero _)]
    simp only [EnvSystem.getEnvironmentVariable, hvalue, hsize, if_pos hfits,
      Nat.add_sub_cancel, ne_eq, not_true_eq_false, if_false, List.append_assoc]

/-- The final pass writes a row that is missing. -/
theorem finalPass_missing {v : EnvVar} (hv : IsRow v) {vars : List (EnvVar × Option ℕ)}
    {envCopy : List (List WChar)} (hentries : ∀ env ∈ envCopy, IsEntry env)
    (h : ∀ env ∈ envCopy.head?, rowName v < sys.upperName env) (cname : String) {envLen : ℕ}
    {dst : List WChar} (hroom : dst.length + (sys.written (.inl v)).length ≤ envLen)
    (hlen : envLen < 2 ^ 32) :
    sys.finalPass cname envLen ((v, some (sys.valueSize v)) :: vars) envCopy dst =
      sys.finalPass cname envLen vars envCopy (dst ++ sys.written (.inl v)) := by
  rw [EnvSystem.finalPass, compareNext_missing documented hv hentries h]
  show (sys.copyRequired cname envLen v dst _ >>= fun dst => _) = _
  rw [copyRequired_eq cname hroom hlen]
  rfl

/-- Both loops go over a row and a text with its name together. -/
theorem compareNext_eq {v : EnvVar} (hv : IsRow v) {env : List WChar} (henv : IsEntry env)
    (envCopy : List (List WChar)) (h : rowName v = sys.upperName env) :
    sys.compareNext v (env :: envCopy) = .ok 0 := by
  rw [compareNext_cons documented hv henv, h, listSign, if_neg (lt_irrefl _),
    if_neg (lt_irrefl _)]

/-- If the next entry is the required variable, the third pass takes both. -/
theorem thirdPass_eq {v : EnvVar} (hv : IsRow v) {env : List WChar} (henv : IsEntry env)
    (h : rowName v = sys.upperName env) (vars : List EnvVar) (envCopy : List (List WChar))
    (envLen : ℕ) :
    sys.thirdPass (v :: vars) (env :: envCopy) envLen =
      (sys.thirdPass vars envCopy envLen).map fun r => (r.1, none :: r.2) := by
  rw [EnvSystem.thirdPass, compareNext_eq documented hv henv envCopy h]
  rfl

/-- So does the last pass, which copies the entry. -/
theorem finalPass_eq {v : EnvVar} (hv : IsRow v) {env : List WChar} (henv : IsEntry env)
    (h : rowName v = sys.upperName env) (cname : String) (envLen : ℕ) (valueLen : Option ℕ)
    (vars : List (EnvVar × Option ℕ)) (envCopy : List (List WChar)) (dst : List WChar) :
    sys.finalPass cname envLen ((v, valueLen) :: vars) (env :: envCopy) dst =
      sys.finalPass cname envLen vars envCopy (dst ++ (env ++ [0])) := by
  rw [EnvSystem.finalPass, compareNext_eq documented hv henv envCopy h]
  rfl

/-- Both loops go over a text that is before the next row. -/
theorem compareNext_gt {v : EnvVar} (hv : IsRow v) {env : List WChar} (henv : IsEntry env)
    (envCopy : List (List WChar)) (h : sys.upperName env < rowName v) :
    sys.compareNext v (env :: envCopy) = .ok 1 := by
  rw [compareNext_cons documented hv henv, listSign, if_neg h.not_gt, if_pos h]

/-- If the next entry comes before the required variable, the third pass takes the entry. -/
theorem thirdPass_gt {v : EnvVar} (hv : IsRow v) {env : List WChar} (henv : IsEntry env)
    (h : sys.upperName env < rowName v) (vars : List EnvVar) (envCopy : List (List WChar))
    (envLen : ℕ) :
    sys.thirdPass (v :: vars) (env :: envCopy) envLen =
      sys.thirdPass (v :: vars) envCopy envLen := by
  rw [EnvSystem.thirdPass, compareNext_gt documented hv henv envCopy h]
  rfl

/-- So does the last pass, which copies it. -/
theorem finalPass_gt {v : EnvVar} (hv : IsRow v) {env : List WChar} (henv : IsEntry env)
    (h : sys.upperName env < rowName v) (cname : String) (envLen : ℕ) (valueLen : Option ℕ)
    (vars : List (EnvVar × Option ℕ)) (envCopy : List (List WChar)) (dst : List WChar) :
    sys.finalPass cname envLen ((v, valueLen) :: vars) (env :: envCopy) dst =
      sys.finalPass cname envLen ((v, valueLen) :: vars) envCopy (dst ++ (env ++ [0])) := by
  rw [EnvSystem.finalPass, compareNext_gt documented hv henv envCopy h]
  rfl

omit documented in
/-- Without required variables the last pass copies the rest of the entries. -/
theorem finalPass_nil (cname : String) (envLen : ℕ) (envCopy : List (List WChar))
    (dst : List WChar) :
    sys.finalPass cname envLen [] envCopy dst = .ok (dst ++ envCopy.flatMap (· ++ [0])) := by
  induction envCopy generalizing dst with
  | nil => rw [EnvSystem.finalPass, List.flatMap_nil, List.append_nil]
  | cons env envCopy ih =>
    rw [EnvSystem.finalPass, ih, List.flatMap_cons, List.append_assoc]

/-- The steps of the two loops. -/
def EnvSystem.steps (sys : EnvSystem) (vars : List EnvVar) (envCopy : List (List WChar)) :
    List (EnvVar ⊕ List WChar) :=
  TableMerge.walk rowName sys.upperName vars envCopy

/-- What the steps write. -/
def EnvSystem.output (sys : EnvSystem) (vars : List EnvVar) (envCopy : List (List WChar)) :
    List WChar :=
  (sys.steps vars envCopy).flatMap sys.written

omit documented in
/-- Without required variables all entries are written. -/
theorem output_nil (envCopy : List (List WChar)) :
    sys.output [] envCopy = envCopy.flatMap (· ++ [0]) := by
  rw [EnvSystem.output, EnvSystem.steps, TableMerge.walk_nil_left, List.flatMap_map]
  rfl

omit documented in
/-- A required variable that comes before the next entry is written before it. -/
theorem output_missing {v : EnvVar} {vars : List EnvVar} {envCopy : List (List WChar)}
    (h : ∀ env ∈ envCopy.head?, rowName v < sys.upperName env) :
    sys.output (v :: vars) envCopy = sys.written (.inl v) ++ sys.output vars envCopy := by
  rw [EnvSystem.output, EnvSystem.steps, TableMerge.walk_missing h]
  rfl

omit documented in
/-- One that is the next entry is not written again. -/
theorem output_eq {v : EnvVar} {vars : List EnvVar} {env : List WChar}
    {envCopy : List (List WChar)} (h : rowName v = sys.upperName env) :
    sys.output (v :: vars) (env :: envCopy) = (env ++ [0]) ++ sys.output vars envCopy := by
  rw [EnvSystem.output, EnvSystem.steps, TableMerge.walk_eq h]
  rfl

omit documented in
/-- An entry before the required variable is written before it. -/
theorem output_gt {v : EnvVar} {vars : List EnvVar} {env : List WChar}
    {envCopy : List (List WChar)} (h : sys.upperName env < rowName v) :
    sys.output (v :: vars) (env :: envCopy) = (env ++ [0]) ++ sys.output (v :: vars) envCopy := by
  rw [EnvSystem.output, EnvSystem.steps, TableMerge.walk_gt h]
  rfl

/-- **The two loops** take the same branches: what the final pass writes has the size that the third
pass has counted. The texts in the copy are part of that size from the start. -/
theorem passes_agree (cname : String) {vars : List EnvVar} {envCopy : List (List WChar)}
    (hvars : ∀ v ∈ vars, IsRow v) (hentries : ∀ env ∈ envCopy, IsEntry env) :
    ∃ added valueLen, valueLen.length = vars.length ∧
      (∀ envLen, sys.thirdPass vars envCopy envLen = .ok (envLen + added, valueLen)) ∧
      (envCopy.flatMap (· ++ [0])).length + added = (sys.output vars envCopy).length ∧
      ∀ envLen dst, dst.length + (sys.output vars envCopy).length ≤ envLen → envLen < 2 ^ 32 →
        sys.finalPass cname envLen (vars.zip valueLen) envCopy dst =
          .ok (dst ++ sys.output vars envCopy) := by
  induction vars, envCopy using TableMerge.walk_induction rowName sys.upperName with
  | rest envCopy =>
    refine ⟨0, [], rfl, fun envLen => ?_, ?_, fun envLen dst _ _ => ?_⟩
    · rw [EnvSystem.thirdPass, Nat.add_zero]
    · rw [output_nil, Nat.add_zero]
    · rw [output_nil, List.zip_nil_left, finalPass_nil]
  | missing v vars envCopy h ih =>
    obtain ⟨hv, hvars⟩ := List.forall_mem_cons.mp hvars
    obtain ⟨added, valueLen, hlength, hthird, hsize, hfinal⟩ := ih hvars hentries
    rw [output_missing h]
    refine ⟨(sys.written (.inl v)).length + added, some (sys.valueSize v) :: valueLen,
      congrArg (· + 1) hlength, fun envLen => ?_, ?_, fun envLen dst hroom hlen => ?_⟩
    · rw [thirdPass_missing documented hv hentries h, hthird, ← Nat.add_assoc]
      rfl
    · rw [List.length_append, ← hsize]
      omega
    · rw [List.length_append] at hroom
      rw [List.zip_cons_cons, finalPass_missing documented hv hentries h cname (by omega) hlen,
        hfinal _ _ (by rw [List.length_append]; omega) hlen, List.append_assoc]
  | eq v vars env envCopy h ih =>
    obtain ⟨hv, hvars⟩ := List.forall_mem_cons.mp hvars
    obtain ⟨henv, hentries⟩ := List.forall_mem_cons.mp hentries
    obtain ⟨added, valueLen, hlength, hthird, hsize, hfinal⟩ := ih hvars hentries
    rw [output_eq h]
    refine ⟨added, none :: valueLen, congrArg (· + 1) hlength, fun envLen => ?_, ?_,
      fun envLen dst hroom hlen => ?_⟩
    · rw [thirdPass_eq documented hv henv h, hthird]
      rfl
    · rw [List.flatMap_cons]
      simp only [List.length_append]
      omega
    · rw [List.length_append, ← Nat.add_assoc] at hroom
      rw [List.zip_cons_cons, finalPass_eq documented hv henv h,
        hfinal _ _ (by rwa [List.length_append]) hlen, List.append_assoc]
  | gt v vars env envCopy h ih =>
    obtain ⟨henv, hrest⟩ := List.forall_mem_cons.mp hentries
    obtain ⟨added, valueLen, hlength, hthird, hsize, hfinal⟩ := ih hvars hrest
    have hv : IsRow v := hvars v List.mem_cons_self
    obtain ⟨value, valueLen, rfl⟩ := List.exists_cons_of_length_eq_add_one hlength
    rw [output_gt h]
    refine ⟨added, value :: valueLen, hlength, fun envLen => ?_, ?_,
      fun envLen dst hroom hlen => ?_⟩
    · rw [thirdPass_gt documented hv henv h, hthird]
    · rw [List.flatMap_cons]
      simp only [List.length_append]
      omega
    · rw [List.length_append, ← Nat.add_assoc] at hroom
      rw [List.zip_cons_cons, finalPass_gt documented hv henv h, ← List.zip_cons_cons,
        hfinal _ _ (by rwa [List.length_append]) hlen, List.append_assoc]

end

section

variable {sys : EnvSystem}

/-- The characters of a text after the conversion, with its `NUL`. -/
def EnvSystem.size (sys : EnvSystem) (text : List UInt8) : ℕ := (sys.toWide text).length + 1

/-- The characters of some texts. -/
def EnvSystem.totalSize (sys : EnvSystem) (texts : List (List UInt8)) : ℕ :=
  (texts.map sys.size).sum

/-- The sizes of the texts are added. -/
theorem totalSize_cons (text : List UInt8) (texts : List (List UInt8)) :
    sys.totalSize (text :: texts) = sys.size text + sys.totalSize texts := rfl

/-- A text whose length is no `int` cannot be converted. -/
theorem multiByteToWideChar_of_large {text : List UInt8} (h : 2 ^ 31 ≤ sys.size text) (target : ℕ)
    (room : ℤ) : sys.multiByteToWideChar text target room = .error .lastError := by
  rw [EnvSystem.multiByteToWideChar]
  exact if_pos h

/-- Without room the characters are counted. -/
theorem multiByteToWideChar_count {text : List UInt8} (h : sys.size text < 2 ^ 31) (target : ℕ) :
    sys.multiByteToWideChar text target 0 = .ok (sys.size text, sys.fresh target) := by
  rw [EnvSystem.multiByteToWideChar]
  exact if_neg (not_le_of_gt h)

/-- With enough room the text is converted. -/
theorem multiByteToWideChar_fits {text : List UInt8} (h : sys.size text < 2 ^ 31) (target : ℕ)
    {room : ℤ} (hroom : sys.size text ≤ room) :
    sys.multiByteToWideChar text target room = .ok (sys.size text, sys.toWide text) := by
  have hpos : 0 < sys.size text := Nat.succ_pos _
  have hlt : ¬room < sys.size text := by omega
  rw [EnvSystem.multiByteToWideChar]
  exact (if_neg (not_le_of_gt h)).trans ((if_neg (by omega)).trans (if_neg hlt))

/-- With negative room it is not. -/
theorem multiByteToWideChar_negative (text : List UInt8) (target : ℕ) {room : ℤ}
    (hroom : room < 0) : sys.multiByteToWideChar text target room = .error .lastError := by
  have hzero : room ≠ 0 := by omega
  have hsmall : room < sys.size text := by omega
  rw [EnvSystem.multiByteToWideChar]
  split_ifs
  · rfl
  · rfl
  · contradiction

/-- If it does not fail, it says the number of characters, whatever the room is. -/
theorem multiByteToWideChar_cases (sys : EnvSystem) (text : List UInt8) (target : ℕ) (room : ℤ) :
    sys.multiByteToWideChar text target room = .error .lastError ∨
      ∃ wide, sys.multiByteToWideChar text target room = .ok (sys.size text, wide) := by
  rw [EnvSystem.multiByteToWideChar]
  split_ifs
  · exact Or.inl rfl
  · exact Or.inr ⟨_, rfl⟩
  · exact Or.inl rfl
  · exact Or.inr ⟨_, rfl⟩

/-- The first pass adds up the sizes. It fails if one of them is not an `int`. -/
theorem firstPass_eq (texts : List (List UInt8)) :
    sys.firstPass texts = if ∀ text ∈ texts, sys.size text < 2 ^ 31 then .ok (sys.totalSize texts)
      else .error .lastError := by
  induction texts with
  | nil => rfl
  | cons text texts ih =>
    have hall : (∀ env ∈ text :: texts, sys.size env < 2 ^ 31) ↔
        sys.size text < 2 ^ 31 ∧ ∀ env ∈ texts, sys.size env < 2 ^ 31 := List.forall_mem_cons
    rw [EnvSystem.firstPass, ih, if_congr hall rfl rfl]
    by_cases hrest : ∀ env ∈ texts, sys.size env < 2 ^ 31
    · rw [if_pos hrest]
      by_cases htext : sys.size text < 2 ^ 31
      · rw [multiByteToWideChar_count htext, if_pos ⟨htext, hrest⟩]
        rfl
      · rw [multiByteToWideChar_of_large (not_lt.mp htext), if_neg fun h => htext h.1]
        rfl
    · rw [if_neg hrest, if_neg fun h => hrest h.2]
      obtain hfail | ⟨wide, hok⟩ := multiByteToWideChar_cases sys text 0 0
      · rw [hfail]
        rfl
      · rw [hok]
        rfl

/-- The second pass converts everything if the whole size is an `int`. -/
theorem secondPass_ok {envLen ptr : ℕ} {texts : List (List UInt8)}
    (hptr : ptr + sys.totalSize texts = envLen) (h : sys.totalSize texts < 2 ^ 31) :
    sys.secondPass envLen ptr texts = .ok (texts.map sys.toWide) := by
  induction texts generalizing ptr with
  | nil => rfl
  | cons text texts ih =>
    rw [totalSize_cons] at hptr h
    have hroom : roomAt envLen ptr = (envLen : ℤ) - ptr := by
      rw [roomAt, Int.bmod_eq_of_le (by omega) (by omega)]
    rw [EnvSystem.secondPass, multiByteToWideChar_fits (by omega) _ (by omega)]
    show (sys.secondPass envLen (ptr + sys.size text) texts >>= fun envCopy => _) = _
    rw [ih (by omega) (by omega)]
    rfl

/-- The second pass fails if the whole size is not an `int`, although its cast may look like one:
at one of the texts, the room that is left is a negative `int`. -/
theorem secondPass_error {envLen ptr : ℕ} {texts : List (List UInt8)}
    (hptr : ptr + sys.totalSize texts = envLen) (heach : ∀ text ∈ texts, sys.size text < 2 ^ 31)
    (h : 2 ^ 31 ≤ sys.totalSize texts) :
    sys.secondPass envLen ptr texts = .error .lastError := by
  induction texts generalizing ptr with
  | nil => exact absurd h (Nat.not_le_of_gt (Nat.two_pow_pos 31))
  | cons text texts ih =>
    obtain ⟨htext, heach⟩ := List.forall_mem_cons.mp heach
    rw [totalSize_cons] at hptr h
    rw [EnvSystem.secondPass]
    by_cases hrest : 2 ^ 31 ≤ sys.totalSize texts
    · obtain hfail | ⟨wide, hok⟩ := multiByteToWideChar_cases sys text ptr (roomAt envLen ptr)
      · rw [hfail]
        rfl
      · rw [hok]
        show (sys.secondPass envLen (ptr + sys.size text) texts >>= fun envCopy => _) = _
        rw [ih (by omega) heach hrest]
        rfl
    · have hroom : roomAt envLen ptr < 0 := by
        rw [roomAt, Int.bmod_def, Int.emod_eq_of_lt (by omega) (by omega), if_neg (by omega)]
        omega
      rw [multiByteToWideChar_negative text ptr hroom]
      rfl

end

/-- The bytes of a text, which are not `NUL`. -/
abbrev CString := { text : List UInt8 // 0 ∉ text }

/-- A given text `NAME=value`, with a name. -/
structure EnvEntry where
  name : CString
  value : CString
  name_ne_nil : name.val ≠ []
  equal_notMem : equalSign ∉ name.val

/-- The text of an entry. -/
def EnvEntry.text (e : EnvEntry) : List UInt8 := e.name.val ++ equalSign :: e.value.val

/-- The tree id as `process_initialize()` makes it. -/
def treeIdText (id : CString) : List UInt8 := bytes "PROCESSX_" ++ id.val ++ bytes "=YES"

/-- The texts in a block, which ends with an empty one. -/
def blockTexts (block : List WChar) : List (List WChar) :=
  (block.splitOn 0).takeWhile (· ≠ [])

/-- A required variable that the parent has, as a text, unless its name is among the given ones. -/
def EnvSystem.inheritedText (sys : EnvSystem) (env : List EnvEntry) (v : EnvVar) :
    Option (List WChar) :=
  if ∃ e ∈ env, sys.upper (sys.toWide e.name.val) = sys.upper v.wide then none
  else (sys.getenv v.wide).map (v.wideEq ++ ·)

/-- The texts of the block that are not given. -/
def EnvSystem.inherited (sys : EnvSystem) (env : List EnvEntry) : List (List WChar) :=
  requiredVars.filterMap (sys.inheritedText env)

/-- Texts with a `NUL` behind each are found again. -/
theorem blockTexts_flatMap {texts : List (List WChar)} (h : ∀ text ∈ texts, text ≠ [] ∧ 0 ∉ text) :
    blockTexts (texts.flatMap (· ++ [0]) ++ [0]) = texts := by
  induction texts with
  | nil => rfl
  | cons text texts ih =>
    obtain ⟨⟨hne, hzero⟩, htexts⟩ := List.forall_mem_cons.mp h
    have hsplit : (((text :: texts).flatMap (· ++ [0])) ++ [0]).splitOn 0 =
        text :: ((texts.flatMap (· ++ [0])) ++ [0]).splitOn 0 := by
      rw [List.flatMap_cons, List.append_assoc, List.append_assoc, List.singleton_append]
      exact List.splitOn_append_cons_self_of_not_mem hzero _
    rw [blockTexts, hsplit, List.takeWhile_cons_of_pos (by simpa using hne)]
    exact congrArg _ (ih htexts)

section

variable {sys : EnvSystem} (documented : sys.Documented)

include documented

/-- A text without a terminator stays one. -/
theorem zero_notMem_toWide {text : List UInt8} (h : 0 ∉ text) : 0 ∉ sys.toWide text := fun hmem =>
  h (documented.mem_of_toWide text 0 (by decide) hmem)

/-- An entry is converted part by part. -/
theorem toWide_text (e : EnvEntry) :
    sys.toWide e.text = sys.toWide e.name.val ++ wEqual :: sys.toWide e.value.val :=
  documented.toWide_ascii _ equalSign _ (by decide)

/-- The name of a converted entry is its converted name. -/
theorem nameOf_text (e : EnvEntry) : nameOf (sys.toWide e.text) = sys.toWide e.name.val := by
  rw [toWide_text documented]
  exact nameOf_append _ fun hmem =>
    e.equal_notMem (documented.mem_of_toWide _ equalSign (by decide) hmem)

/-- A converted entry is well formed. -/
theorem isEntry_text (e : EnvEntry) : IsEntry (sys.toWide e.text) where
  zero_notMem := by
    refine zero_notMem_toWide documented fun hmem => ?_
    rcases List.mem_append.mp hmem with hname | hvalue
    · exact e.name.property hname
    · exact e.value.property ((List.mem_cons.mp hvalue).resolve_left (by decide))
  equal_mem := by
    rw [toWide_text documented]
    exact List.mem_append_right _ List.mem_cons_self
  name_ne_nil := by
    rw [nameOf_text documented]
    exact fun hnil => e.name_ne_nil ((documented.toWide_eq_nil _).mp hnil)

omit documented in
/-- A character before the equals sign belongs to the name. -/
theorem nameOf_cons {c : WChar} (text : List WChar) (h : c ≠ wEqual) :
    nameOf (c :: text) = c :: nameOf text := by
  rw [nameOf, List.idxOf_cons_ne _ h]
  rfl

/-- The upper case name of the tree id starts as that of no required variable. -/
theorem upperName_treeId (id : CString) :
    ∃ rest, sys.upper (nameOf (sys.toWide (treeIdText id))) = 80 :: 82 :: rest := by
  have hnil : sys.toWide [] = [] := (documented.toWide_eq_nil []).mpr rfl
  have hcons : ∀ c b, c < 128 → sys.toWide (c :: b) = c.toUInt16 :: sys.toWide b := by
    intro c b hc
    have h := documented.toWide_ascii [] c b hc
    rwa [hnil] at h
  have htext : treeIdText id = 80 :: 82 :: (bytes "OCESSX_" ++ id.val ++ bytes "=YES") := by
    rfl
  rw [htext, hcons _ _ (by decide), hcons _ _ (by decide), nameOf_cons _ (by decide),
    nameOf_cons _ (by decide), documented.upper_cons _ _ (by decide) (by decide),
    documented.upper_cons _ _ (by decide) (by decide)]
  exact ⟨_, rfl⟩

/-- The entry with the tree id is well formed. -/
theorem isEntry_treeId (id : CString) : IsEntry (sys.toWide (treeIdText id)) where
  zero_notMem := by
    refine zero_notMem_toWide documented fun hmem => ?_
    rcases List.mem_append.mp hmem with hstart | hend
    · rcases List.mem_append.mp hstart with hstart | hid
      · revert hstart
        decide
      · exact id.property hid
    · revert hend
      decide
  equal_mem := by
    have htext : treeIdText id = (bytes "PROCESSX_" ++ id.val) ++ equalSign :: bytes "YES" := rfl
    rw [htext, documented.toWide_ascii _ _ _ (by decide)]
    exact List.mem_append_right _ List.mem_cons_self
  name_ne_nil := by
    obtain ⟨rest, hupper⟩ := upperName_treeId documented id
    intro hnil
    have hlength := documented.upper_length (nameOf (sys.toWide (treeIdText id)))
    rw [hupper, hnil] at hlength
    exact absurd hlength (by simp)

/-- The text of a step, if there is one. -/
def EnvSystem.stepText (sys : EnvSystem) : EnvVar ⊕ List WChar → Option (List WChar)
  | .inl v => (sys.getenv v.wide).map (v.wideEq ++ ·)
  | .inr env => some env

omit documented in
/-- The loops write the texts of their steps. -/
theorem output_eq_flatMap (vars : List EnvVar) (envCopy : List (List WChar)) :
    sys.output vars envCopy =
      ((sys.steps vars envCopy).filterMap sys.stepText).flatMap (· ++ [0]) := by
  have hstep : ∀ step, sys.written step = (sys.stepText step).elim [] (· ++ [0]) := by
    intro step
    cases step with
    | inl v =>
      cases hvalue : sys.getenv v.wide with
      | none => rw [written_of_none hvalue, EnvSystem.stepText, hvalue]; rfl
      | some value => rw [written_of_some hvalue, EnvSystem.stepText, hvalue]; rfl
    | inr env => rfl
  rw [EnvSystem.output]
  induction sys.steps vars envCopy with
  | nil => rfl
  | cons step steps ih =>
    rw [List.flatMap_cons, hstep, ih, List.filterMap_cons]
    cases sys.stepText step <;> rfl

/-- The text of a step has its key. -/
theorem upperName_stepText {step : EnvVar ⊕ List WChar} {text : List WChar}
    (hrow : ∀ v, step = .inl v → IsRow v) (h : sys.stepText step = some text) :
    sys.upperName text = TableMerge.stepKey rowName sys.upperName step := by
  cases step with
  | inl v =>
    have hv := hrow v rfl
    obtain ⟨value, -, rfl⟩ := Option.map_eq_some_iff.mp h
    have hnot : wEqual ∉ v.wide := fun hmem => absurd (hv.capital _ hmem).1 (by decide)
    have hname : nameOf (v.wideEq ++ value) = v.wide := by
      rw [hv.wideEq_eq, List.append_assoc, List.singleton_append, nameOf_append value hnot]
    show codes (sys.upper (nameOf (v.wideEq ++ value))) = codes v.wide
    rw [hname, upper_row documented hv]
  | inr env =>
    obtain rfl := Option.some.inj h
    rfl

/-- The text of a step is not empty, and has no `NUL`. -/
theorem stepText_plain {step : EnvVar ⊕ List WChar} {text : List WChar}
    (hrow : ∀ v, step = .inl v → IsRow v) (hentry : ∀ env, step = .inr env → IsEntry env)
    (h : sys.stepText step = some text) : text ≠ [] ∧ 0 ∉ text := by
  cases step with
  | inl v =>
    have hv := hrow v rfl
    obtain ⟨value, hvalue, rfl⟩ := Option.map_eq_some_iff.mp h
    have hzero : 0 ∉ v.wide := fun hmem => absurd (hv.capital 0 hmem).1 (by decide)
    have hequal : (0 : WChar) ≠ wEqual := by decide
    rw [hv.wideEq_eq]
    exact ⟨by simp, by simp [hzero, hequal, (documented.getenv_value _ _ hvalue).1]⟩
  | inr env =>
    obtain rfl := Option.some.inj h
    have henv := hentry env rfl
    exact ⟨List.ne_nil_of_mem henv.equal_mem, henv.zero_notMem⟩

omit documented in
/-- The names of the table are short. -/
theorem len_requiredVars : ∀ v ∈ requiredVars, v.len ≤ 12 := by
  decide

/-- The table adds little. -/
theorem output_length_le {vars : List EnvVar} (hvars : ∀ v ∈ vars, IsRow v ∧ v.len ≤ 12)
    (envCopy : List (List WChar)) :
    (sys.output vars envCopy).length ≤
      (envCopy.flatMap (· ++ [0])).length + vars.length * 2 ^ 16 := by
  induction vars, envCopy using TableMerge.walk_induction rowName sys.upperName with
  | rest envCopy =>
    rw [output_nil]
    omega
  | missing v vars envCopy h ih =>
    obtain ⟨⟨hv, hlen⟩, hvars⟩ := List.forall_mem_cons.mp hvars
    have hrest := ih hvars
    have hwritten : (sys.written (.inl v)).length ≤ 2 ^ 16 := by
      cases hvalue : sys.getenv v.wide with
      | none => rw [written_of_none hvalue]; exact Nat.zero_le _
      | some value =>
        have hvalueLen := (documented.getenv_value _ _ hvalue).2
        rw [written_of_some hvalue, List.length_append, List.length_append, hv.length_wideEq,
          List.length_singleton]
        omega
    rw [output_missing h, List.length_append, List.length_cons]
    omega
  | eq v vars env envCopy h ih =>
    have hrest := ih (List.forall_mem_cons.mp hvars).2
    rw [output_eq h, List.flatMap_cons, List.length_cons]
    simp only [List.length_append]
    omega
  | gt v vars env envCopy h ih =>
    have hrest := ih hvars
    rw [output_gt h, List.flatMap_cons]
    simp only [List.length_append]
    omega

omit documented in
/-- The texts of the block: all those in the copy, and the required variables that are set and have
none of their names. -/
theorem texts_perm {envCopy : List (List WChar)}
    (hsorted : envCopy.Pairwise (sys.upperName · ≤ sys.upperName ·)) :
    ((sys.steps requiredVars envCopy).filterMap sys.stepText).Perm
      (envCopy ++ requiredVars.filterMap fun v =>
        if rowName v ∈ envCopy.map sys.upperName then none else sys.stepText (.inl v)) := by
  have hperm := (TableMerge.walk_perm sorted_requiredVars hsorted).filterMap sys.stepText
  rw [List.filterMap_append, List.filterMap_map, List.filterMap_map, TableMerge.missing,
    List.filterMap_filter] at hperm
  have helements : envCopy.filterMap (sys.stepText ∘ .inr) = envCopy := List.filterMap_some
  rw [helements] at hperm
  refine hperm.trans (List.Perm.append_left _ (List.Perm.of_eq ?_))
  refine List.filterMap_congr fun v _ => ?_
  by_cases h : rowName v ∈ envCopy.map sys.upperName <;> simp [h]

/-- A required variable is among the texts if its name is among the given ones. -/
theorem rowName_mem_iff {v : EnvVar} (hv : v ∈ requiredVars) (env : List EnvEntry) (id : CString)
    {envCopy : List (List WChar)}
    (hperm : envCopy.Perm ((env.map EnvEntry.text ++ [treeIdText id]).map sys.toWide)) :
    rowName v ∈ envCopy.map sys.upperName ↔
      ∃ e ∈ env, sys.upper (sys.toWide e.name.val) = sys.upper v.wide := by
  have hcodes : ∀ a b : List WChar, codes a = codes b ↔ a = b := fun a b =>
    (List.map_injective_iff.mpr fun _ _ => UInt16.toNat_inj.mp).eq_iff
  have htree : rowName v ≠ sys.upperName (sys.toWide (treeIdText id)) := by
    obtain ⟨rest, hupper⟩ := upperName_treeId documented id
    intro heq
    rw [EnvSystem.upperName, hupper, rowName, hcodes] at heq
    have hstart : ∀ v ∈ requiredVars, v.wide.take 2 ≠ [80, 82] := by decide
    exact hstart v hv (by rw [heq]; rfl)
  rw [(hperm.map _).mem_iff, List.map_append, List.map_append, List.mem_append,
    List.map_singleton, List.map_singleton, List.mem_singleton, or_iff_left htree, List.map_map,
    List.map_map, List.mem_map]
  refine exists_congr fun e => and_congr_right fun _ => ?_
  show sys.upperName (sys.toWide e.text) = codes v.wide ↔ _
  rw [EnvSystem.upperName, nameOf_text documented, hcodes,
    upper_row documented (isRow_requiredVars v hv)]

/-- The copy is sorted. -/
theorem qsort_eq {texts : List (List WChar)} (h : ∀ text ∈ texts, IsEntry text) :
    ∃ envCopy, sys.qsort sys.qsortWcscmp texts = .ok envCopy ∧ envCopy.Perm texts ∧
      envCopy.Pairwise (sys.upperName · ≤ sys.upperName ·) :=
  documented.qsort_sorts _ sys.upperName texts fun a ha b hb =>
    qsortWcscmp_eq documented (h a ha) (h b hb)

omit documented in
/-- The size of the copy is the one from the first pass. -/
theorem length_flatMap_copy {envCopy : List (List WChar)} {texts : List (List UInt8)}
    (hperm : envCopy.Perm (texts.map sys.toWide)) :
    (envCopy.flatMap (· ++ [0])).length = sys.totalSize texts := by
  rw [(hperm.flatMap_right _).length_eq, List.length_flatMap, List.map_map]
  refine congrArg List.sum (List.map_congr_left fun text _ => ?_)
  exact List.length_append

/-- The two loops over the whole table make the block. -/
theorem passes_requiredVars (cname : String) {envCopy : List (List WChar)} {envLen : ℕ}
    (hentries : ∀ env ∈ envCopy, IsEntry env)
    (hlen : (envCopy.flatMap (· ++ [0])).length = envLen) (h : envLen < 2 ^ 31) :
    ∃ valueLen,
      sys.thirdPass requiredVars envCopy envLen =
        .ok ((sys.output requiredVars envCopy).length, valueLen) ∧
      sys.finalPass cname (sys.output requiredVars envCopy).length (requiredVars.zip valueLen)
        envCopy [] = .ok (sys.output requiredVars envCopy) := by
  obtain ⟨added, valueLen, -, hthird, hsize, hfinal⟩ :=
    passes_agree documented cname isRow_requiredVars hentries
  have hbound := output_length_le documented
    (fun v hv => ⟨isRow_requiredVars v hv, len_requiredVars v hv⟩) envCopy
  have hrows : requiredVars.length = 11 := rfl
  refine ⟨valueLen, ?_, ?_⟩
  · rw [hthird, ← hlen, hsize]
  · exact hfinal _ [] (by rw [List.length_nil, Nat.zero_add]) (by omega)

/-- **The environment block**: the size from the third pass is the number of characters that the
final pass writes before the terminator. The texts in the block are the given ones, the tree id,
and the required variables that the parent has and whose name is not given, in the order of their
upper case names. If the given texts together are too large for an `int`, there is no block. -/
theorem makeProgramEnv_block (env : List EnvEntry) (id : CString) (cname : String) :
    (sys.totalSize (env.map EnvEntry.text ++ [treeIdText id]) < 2 ^ 31 →
      ∃ block, sys.makeProgramEnv (env.map EnvEntry.text) (treeIdText id) cname = .ok block ∧
        block.dst.length = block.envLen + 1 ∧
        block.dst = (blockTexts block.dst).flatMap (· ++ [0]) ++ [0] ∧
        (blockTexts block.dst).Perm
          ((env.map EnvEntry.text ++ [treeIdText id]).map sys.toWide ++ sys.inherited env) ∧
        (blockTexts block.dst).Pairwise (sys.upperName · ≤ sys.upperName ·)) ∧
    (2 ^ 31 ≤ sys.totalSize (env.map EnvEntry.text ++ [treeIdText id]) →
      sys.makeProgramEnv (env.map EnvEntry.text) (treeIdText id) cname = .error .lastError) := by
  have hfilter : (env.map EnvEntry.text).filter (equalSign ∈ ·) = env.map EnvEntry.text := by
    refine List.filter_eq_self.mpr fun text htext => ?_
    obtain ⟨e, -, rfl⟩ := List.mem_map.mp htext
    simp [EnvEntry.text]
  have hentries : ∀ text ∈ (env.map EnvEntry.text ++ [treeIdText id]).map sys.toWide,
      IsEntry text := by
    rw [List.map_append, List.map_map]
    refine List.forall_mem_append.mpr ⟨?_, ?_⟩
    · exact List.forall_mem_map.mpr fun e _ => isEntry_text documented e
    · exact List.forall_mem_singleton.mpr (isEntry_treeId documented id)
  rw [EnvSystem.makeProgramEnv, hfilter]
  refine ⟨fun hlen => ?_, fun hlen => ?_⟩
  · obtain ⟨envCopy, hqsort, hperm, hsorted⟩ := qsort_eq documented hentries
    have hcopy : ∀ text ∈ envCopy, IsEntry text := fun text htext =>
      hentries text (hperm.mem_iff.mp htext)
    have heach : ∀ text ∈ env.map EnvEntry.text ++ [treeIdText id], sys.size text < 2 ^ 31 :=
      fun text htext => lt_of_le_of_lt (List.le_sum_of_mem (List.mem_map_of_mem htext)) hlen
    obtain ⟨valueLen, hthird, hfinal⟩ := passes_requiredVars documented cname hcopy
      (length_flatMap_copy hperm) hlen
    have hrow : ∀ step ∈ sys.steps requiredVars envCopy, ∀ v, step = .inl v → IsRow v := by
      rintro step hstep v rfl
      exact isRow_requiredVars v
        (TableMerge.mem_of_inl_mem_walk sorted_requiredVars hsorted hstep)
    have hblock : blockTexts (sys.output requiredVars envCopy ++ [0]) =
        (sys.steps requiredVars envCopy).filterMap sys.stepText := by
      rw [output_eq_flatMap]
      refine blockTexts_flatMap fun text htext => ?_
      obtain ⟨step, hstep, hsome⟩ := List.mem_filterMap.mp htext
      refine stepText_plain documented (hrow step hstep) ?_ hsome
      rintro env rfl
      exact hcopy env (TableMerge.mem_of_inr_mem_walk hstep)
    refine ⟨⟨(sys.output requiredVars envCopy).length, sys.output requiredVars envCopy ++ [0]⟩,
      ?_, ?_, ?_, ?_, ?_⟩
    · rw [firstPass_eq, if_pos heach]
      show (sys.secondPass _ 0 _ >>= fun envCopy => _) = _
      rw [secondPass_ok (Nat.zero_add _) hlen]
      show (sys.qsort _ _ >>= fun envCopy => _) = _
      rw [hqsort]
      show (sys.thirdPass requiredVars envCopy _ >>= fun r => _) = _
      rw [hthird]
      show (sys.finalPass cname _ _ envCopy [] >>= fun dst => _) = _
      rw [hfinal]
      rfl
    · rw [List.length_append, List.length_singleton]
    · rw [hblock, ← output_eq_flatMap]
    · rw [hblock]
      refine (texts_perm hsorted).trans (hperm.append (List.Perm.of_eq ?_))
      refine List.filterMap_congr fun v hv => ?_
      rw [EnvSystem.inheritedText, if_congr (rowName_mem_iff documented hv env id hperm) rfl rfl]
      rfl
    · rw [hblock, List.pairwise_filterMap]
      refine (TableMerge.pairwise_walk sorted_requiredVars hsorted).imp_of_mem ?_
      intro a b ha hb hle text htext text' htext'
      rw [upperName_stepText documented (hrow a ha) htext,
        upperName_stepText documented (hrow b hb) htext']
      exact hle
  · rw [firstPass_eq]
    split_ifs with heach
    · show (sys.secondPass _ 0 _ >>= fun envCopy => _) = _
      rw [secondPass_error (Nat.zero_add _) heach hlen]
      rfl
    · rfl

end

/-- Whether a comparison leaves two elements as they are. -/
def leavesOrder : Except EnvError ℤ → Bool
  | .ok r => decide (r ≤ 0)
  | .error _ => true

/-- A system whose texts are all ASCII, with the variable `PATH`. -/
def asciiWindows : EnvSystem where
  toWide text := text.map UInt8.toUInt16
  upper text := text.map fun c => if 97 ≤ c ∧ c ≤ 122 then c - 32 else c
  getenv name := if name = wide "PATH" then some (wide "C:") else none
  qsort cmp base :=
    .ok ((base.attach.mergeSort fun a b => leavesOrder (cmp a b)).map Subtype.val)
  fresh _ := []

/-- An ASCII system does what is documented. -/
theorem asciiWindows_documented : asciiWindows.Documented where
  toWide_eq_nil _ := List.map_eq_nil_iff
  toWide_ascii _ _ _ _ := List.map_append
  mem_of_toWide text c _ hmem := by
    obtain ⟨b, hb, heq⟩ := List.mem_map.mp hmem
    rwa [UInt8.toUInt16_inj.mp heq] at hb
  upper_length _ := List.length_map _
  upper_cons c text _ hc := by
    have hsmall : ¬(97 ≤ c ∧ c ≤ 122) := by
      simp only [UInt16.le_iff_toNat_le] at hc ⊢
      exact fun h => absurd (le_trans h.1 hc) (by decide)
    show (if 97 ≤ c ∧ c ≤ 122 then c - 32 else c) :: _ = _
    rw [if_neg hsmall]
    rfl
  zero_notMem_upper text hzero hmem := by
    obtain ⟨c, hc, heq⟩ := List.mem_map.mp hmem
    split_ifs at heq with hsmall
    · have hcode : c = 32 := by rw [← UInt16.sub_add_cancel c 32, heq]; rfl
      exact absurd (hcode ▸ hsmall) (by decide)
    · exact hzero (heq ▸ hc)
  getenv_value name value h := by
    have hvalue : (if name = wide "PATH" then some (wide "C:") else none) = some value := h
    split_ifs at hvalue
    obtain rfl := Option.some.inj hvalue
    decide
  qsort_sorts cmp key base hcmp := by
    have hle : ∀ a b : { text // text ∈ base },
        leavesOrder (cmp a b) = decide (key a ≤ key b) := by
      intro a b
      rw [hcmp a a.property b b.property]
      refine decide_eq_decide.mpr ?_
      unfold listSign
      split_ifs with hlt hgt
      · simp [hlt.le]
      · simp [hgt]
      · simp [not_lt.mp hgt]
    refine ⟨_, rfl, ?_, ?_⟩
    · have hperm := (List.mergeSort_perm base.attach fun a b => leavesOrder (cmp a b)).map
        Subtype.val
      rwa [List.attach_map_subtype_val] at hperm
    · rw [List.pairwise_map]
      refine (List.pairwise_mergeSort (fun a b c hab hbc => ?_) (fun a b => ?_) base.attach).imp
        fun {a b} hab => ?_
      · rw [hle, decide_eq_true_eq] at hab hbc ⊢
        exact le_trans hab hbc
      · rw [hle, hle, Bool.or_eq_true, decide_eq_true_eq, decide_eq_true_eq]
        exact le_total _ _
      · rwa [hle, decide_eq_true_eq] at hab

/-- Only `temp` is given, so the `PATH` of the parent is added. -/
theorem makeProgramEnv_block_path :
    ∃ block, asciiWindows.makeProgramEnv [bytes "temp=x"] (treeIdText ⟨bytes "1", by decide⟩)
        "ls" = .ok block ∧ block.dst.length = block.envLen + 1 ∧
      (blockTexts block.dst).Perm [wide "temp=x", wide "PROCESSX_1=YES", wide "PATH=C:"] := by
  obtain ⟨block, hmake, hlen, -, hperm, -⟩ := (makeProgramEnv_block asciiWindows_documented
    [⟨⟨bytes "temp", by decide⟩, ⟨bytes "x", by decide⟩, by decide, by decide⟩]
    ⟨bytes "1", by decide⟩ "ls").1 (by decide)
  exact ⟨block, hmake, hlen, hperm⟩

end Processx
