import Lights3.Lib.Decimal
import Lights3.Lib.Paths
import Lights3.Lib.SortedMap

/-!
# Names and keys of the table catalog

The rules for namespace levels and table names, the checks on locations and file
paths, and the keys of metadata files. Everything a table owns in its bucket is named by
a key prefix, so what one table's prefix covers is decided by the segments of names.
-/
namespace Lights3
open ByteString

/-! ## Errors of the REST catalog -/

inductive RestErrorType where
  | BadRequestException | ForbiddenException | NotAuthorizedException
  | NoSuchNamespaceException | NoSuchTableException | NoSuchViewException
  | NoSuchResourceException | AlreadyExistsException | CommitFailedException
  | NamespaceNotEmptyException | UnsupportedOperationException | UnprocessableEntityException
  | RESTException | CommitStateUnknownException | ServiceUnavailableException
  deriving DecidableEq

/-- The HTTP status that goes with the type. -/
def RestErrorType.status : RestErrorType → Nat
  | BadRequestException => 400
  | NotAuthorizedException => 401
  | ForbiddenException => 403
  | NoSuchNamespaceException | NoSuchTableException | NoSuchViewException
  | NoSuchResourceException => 404
  | UnsupportedOperationException => 406
  | AlreadyExistsException | CommitFailedException | NamespaceNotEmptyException => 409
  | UnprocessableEntityException => 422
  | RESTException | CommitStateUnknownException => 500
  | ServiceUnavailableException => 503

structure RestError where
  type : RestErrorType
  message : Bytes
  deriving DecidableEq

def badRequest (m : Bytes) : RestError := ⟨.BadRequestException, m⟩
def notFoundNs (m : Bytes) : RestError := ⟨.NoSuchNamespaceException, m⟩
def notFoundTable (m : Bytes) : RestError := ⟨.NoSuchTableException, m⟩
def alreadyExists (m : Bytes) : RestError := ⟨.AlreadyExistsException, m⟩
def commitFailed (m : Bytes) : RestError := ⟨.CommitFailedException, m⟩
def restInternal (m : Bytes) : RestError := ⟨.RESTException, m⟩
def unavailable (m : Bytes) : RestError := ⟨.ServiceUnavailableException, m⟩

/-! ## Segments and namespaces -/

def slash : UInt8 := 47

abbrev Levels := List Bytes

def edgeChar (c : UInt8) : Bool := (97 ≤ c && c ≤ 122) || (48 ≤ c && c ≤ 57)

def segChar (c : UInt8) : Bool := edgeChar c || c = 95 || c = 45

def kMaxSegment : Nat := 64

def kMaxNamespace : Nat := 512

/-- `valid_segment`. -/
def validSegment (s : Bytes) : Bool :=
  !s.isEmpty && s.length ≤ kMaxSegment && s.head?.any edgeChar && s.getLast?.any edgeChar &&
    s.all segChar && s ≠ ascii "tbl" && s ≠ ascii "view"

/-- `require_segment`. -/
def requireSegment (what s : Bytes) : Except RestError Unit :=
  if validSegment s then .ok ()
  else .error (badRequest (what ++ ascii " '" ++ s ++ ascii
    "' is invalid: 1-64 characters of [a-z0-9_-], starting and ending with a letter or digit"))

/-- `require_namespace`. -/
def requireNamespace (levels : Levels) : Except RestError Unit := do
  if levels = [] then throw (badRequest (ascii "namespace must have at least one level"))
  levels.forM (requireSegment (ascii "namespace level"))
  if (levels.map (·.length + 1)).sum > kMaxNamespace + 1 then
    throw (badRequest (ascii "namespace exceeds 512 characters"))

/-- `ns_path`. -/
def nsPath (levels : Levels) : Bytes :=
  levels.foldl (fun out l => (if out = [] then out else out ++ [slash]) ++ l) []

/-- `ns_display`. -/
def nsDisplay (levels : Levels) : Bytes :=
  levels.foldl (fun out l => (if out = [] then out else out ++ ascii ".") ++ l) []

/-- A namespace that passes `require_namespace`. -/
def ValidNamespace (levels : Levels) : Prop :=
  levels ≠ [] ∧ (∀ s ∈ levels, validSegment s = true) ∧
    (levels.map (·.length + 1)).sum ≤ kMaxNamespace + 1

instance (levels : Levels) : Decidable (ValidNamespace levels) :=
  inferInstanceAs (Decidable (_ ∧ _ ∧ _))

/-- The path of a table: the levels of its namespace and then its name. -/
def ValidTablePath (p : List Bytes) : Prop :=
  ValidNamespace p.dropLast ∧ ∀ s ∈ p, validSegment s = true

instance (p : List Bytes) : Decidable (ValidTablePath p) := inferInstanceAs (Decidable (_ ∧ _))

abbrev TablePath := { p : List Bytes // ValidTablePath p }

namespace TablePath

def levels (p : TablePath) : Levels := p.val.dropLast

def name (p : TablePath) : Bytes := p.val.getLastD []

/-- How a table is written in messages. -/
def display (p : TablePath) : Bytes := nsDisplay p.levels ++ ascii "." ++ p.name

end TablePath

/-! ## Locations and paths -/

/-- `strip_bucket`. -/
def stripBucket (bucket path : Bytes) : Option Bytes := do
  let rest ←
    if ascii "s3://" <+: path then some (path.drop 5)
    else if ascii "s3a://" <+: path then some (path.drop 6)
    else none
  if bucket <+: rest then
    match rest.drop bucket.length with
    | [] => some []
    | c :: key => if c = slash then some key else none
  else none

/-- The segments that `has_dot_segment` walks over. -/
def splitSlash : Bytes → List Bytes
  | [] => [[]]
  | c :: s =>
      if c = slash then [] :: splitSlash s
      else
        match splitSlash s with
        | [] => [[c]]
        | seg :: rest => (c :: seg) :: rest

/-- `has_dot_segment`. -/
def hasDotSegment (key : Bytes) : Bool :=
  (splitSlash key).any (fun seg => seg = ascii "." || seg = ascii "..")

/-- The loop that takes trailing slashes off. -/
def dropTrailingSlashes (key : Bytes) : Bytes := (key.reverse.dropWhile (· = slash)).reverse

/-- `location_to_key`. -/
def locationToKey (bucket reserved location : Bytes) : Except RestError Bytes := do
  let some raw := stripBucket bucket location
    | throw (badRequest (ascii "location '" ++ location ++ ascii "' must be s3://" ++ bucket ++
        ascii "/<path>"))
  let key := dropTrailingSlashes raw
  if key = [] then throw (badRequest (ascii "location must point below the bucket root"))
  if hasDotSegment key || (indexOf [slash, slash] key).isSome || key.head? = some slash then
    throw (badRequest (ascii "location contains an invalid path segment"))
  if reserved <+: key || key ++ [slash] = reserved then
    throw (badRequest (ascii "location must not lie under the reserved catalog prefix"))
  if key.any (fun c => c < 32 || c = 127) then
    throw (badRequest (ascii "location contains control characters"))
  return key

/-- `path_to_key`. -/
def pathToKey (bucket path : Bytes) : Except RestError Bytes :=
  match stripBucket bucket path with
  | some key =>
      if key = [] || key.head? = some slash || hasDotSegment key then
        .error (commitFailed
          (ascii "referenced file '" ++ path ++ ascii "' is not inside bucket " ++ bucket))
      else .ok key
  | none =>
      .error (commitFailed (ascii "referenced file '" ++ path ++ ascii "' is not inside bucket " ++
        bucket))

/-- `key_to_location`. -/
def keyToLocation (bucket key : Bytes) : Bytes := ascii "s3://" ++ bucket ++ [slash] ++ key

def isHexDigit (c : UInt8) : Bool :=
  (48 ≤ c && c ≤ 57) || (97 ≤ c && c ≤ 102) || (65 ≤ c && c ≤ 70)

/-- `looks_like_uuid`. -/
def looksLikeUuid (s : Bytes) : Bool :=
  s.length = 36 &&
    s.zipIdx.all (fun x =>
      if x.2 = 8 || x.2 = 13 || x.2 = 18 || x.2 = 23 then x.1 = 45 else isHexDigit x.1)

/-! ## Metadata files -/

/-- The directory of a table under the reserved prefix, which a purge wipes. -/
def tableDir (reserved : Bytes) (p : TablePath) : Bytes :=
  reserved ++ nsPath p.levels ++ [slash] ++ p.name ++ [slash]

/-- `Catalog::metadata_dir`. -/
def metadataDir (reserved : Bytes) (p : TablePath) : Bytes :=
  reserved ++ nsPath p.levels ++ [slash] ++ p.name ++ ascii "/metadata/"

/-- `snprintf` with `%05llu` into sixteen bytes. -/
def generationDigits (gen : Nat) : Bytes :=
  (List.replicate (5 - (Decimal.render gen).length) 48 ++ Decimal.render gen).take 15

def metadataSuffix : Bytes := ascii ".metadata.json"

/-- `Catalog::metadata_key`. -/
def metadataKey (reserved : Bytes) (p : TablePath) (gen : Nat) (token : Bytes) : Bytes :=
  metadataDir reserved p ++ (generationDigits gen ++ ascii "-" ++ token ++ metadataSuffix)

/-- The name of a metadata file in its directory. -/
def metadataFile (gen : Nat) (token : Bytes) : Bytes :=
  generationDigits gen ++ ascii "-" ++ token ++ metadataSuffix

theorem metadataKey_eq (reserved : Bytes) (p : TablePath) (gen : Nat) (token : Bytes) :
    metadataKey reserved p gen token = metadataDir reserved p ++ metadataFile gen token := rfl

/-! ## Keys as directories -/

theorem validSegment_segChar {s : Bytes} (h : validSegment s = true) :
    ∀ c ∈ s, segChar c = true := by
  unfold validSegment at h
  simp only [Bool.and_eq_true, List.all_eq_true] at h
  exact h.1.1.2

theorem validSegment_ne_nil {s : Bytes} (h : validSegment s = true) : s ≠ [] := by
  rintro rfl
  exact absurd h (by decide)

theorem slash_not_mem_segment {s : Bytes} (h : validSegment s = true) : slash ∉ s := by
  intro hmem
  exact absurd (validSegment_segChar h slash hmem) (by decide)

theorem nsPath_append (levels : Levels) (l : Bytes) :
    nsPath (levels ++ [l]) =
      (if nsPath levels = [] then [] else nsPath levels ++ [slash]) ++ l := by
  unfold nsPath
  rw [List.foldl_append, List.foldl_cons, List.foldl_nil]
  split_ifs with h
  · rw [h]
  · rfl

theorem nsPath_ne_nil {levels : Levels} (hne : levels ≠ [])
    (hs : ∀ s ∈ levels, validSegment s = true) : nsPath levels ≠ [] := by
  obtain ⟨init, l, rfl⟩ := List.eq_nil_or_concat levels |>.resolve_left hne
  rw [List.concat_eq_append] at hs ⊢
  rw [nsPath_append]
  have hl := validSegment_ne_nil (hs l (by simp))
  simp [hl]

theorem nsPath_slash {levels : Levels} (hne : levels ≠ [])
    (hs : ∀ s ∈ levels, validSegment s = true) :
    nsPath levels ++ [slash] = dirPath slash levels := by
  induction levels using List.reverseRecOn with
  | nil => exact absurd rfl hne
  | append_singleton init l ih =>
      rw [nsPath_append, DirPath.append, DirPath.cons, DirPath.nil]
      by_cases hinit : init = []
      · subst hinit
        simp [nsPath]
      · have hvalid : ∀ s ∈ init, validSegment s = true :=
          fun s hmem => hs s (List.mem_append_left _ hmem)
        rw [if_neg (nsPath_ne_nil hinit hvalid), ih hinit hvalid]
        simp

namespace TablePath

variable (p q : TablePath)

theorem levels_ne_nil : p.levels ≠ [] := p.property.1.1

theorem levels_append_name : p.levels ++ [p.name] = p.val := by
  have hne : p.val ≠ [] := by
    intro h
    exact p.levels_ne_nil (by simp [levels, h])
  unfold levels name
  rw [List.getLastD_eq_getLast?, List.getLast?_eq_some_getLast hne]
  exact List.dropLast_append_getLast hne

theorem slash_not_mem : ∀ s ∈ p.val, slash ∉ s :=
  fun s hs => slash_not_mem_segment (p.property.2 s hs)

theorem dirPath_eq : nsPath p.levels ++ [slash] ++ p.name ++ [slash] = dirPath slash p.val := by
  rw [nsPath_slash p.levels_ne_nil p.property.1.2.1, ← p.levels_append_name, DirPath.append]
  simp

end TablePath

/-- The segment that metadata files are in. -/
def metadataSegment : Bytes := ascii "metadata"

theorem slash_not_mem_metadataSegment : slash ∉ metadataSegment := by decide

variable (reserved : Bytes) (p q : TablePath)

theorem tableDir_eq : tableDir reserved p = reserved ++ dirPath slash p.val := by
  rw [← p.dirPath_eq]
  simp [tableDir]

theorem metadataDir_eq :
    metadataDir reserved p = reserved ++ dirPath slash (p.val ++ [metadataSegment]) := by
  rw [DirPath.append, ← p.dirPath_eq]
  simp [metadataDir, metadataSegment, ascii, slash]

theorem slash_not_mem_uuid {s : Bytes} (h : looksLikeUuid s = true) : slash ∉ s := by
  intro hmem
  unfold looksLikeUuid at h
  rw [Bool.and_eq_true, List.all_eq_true] at h
  obtain ⟨i, hi, hget⟩ := List.mem_iff_getElem.mp hmem
  have hx := h.2 (slash, i) (List.mk_mem_zipIdx_iff_getElem?.mpr (by
    rw [List.getElem?_eq_getElem hi, hget]))
  have hslash : ¬ slash = 45 ∧ isHexDigit slash = false := by decide
  split_ifs at hx <;> simp [hslash] at hx

theorem isDigit_of_mem_digits {gen : Nat} {c : UInt8} (h : c ∈ generationDigits gen) :
    Decimal.isDigit c = true := by
  rcases List.mem_append.mp (List.mem_of_mem_take h) with hpad | hdigit
  · rw [List.eq_of_mem_replicate hpad]
    decide
  · exact Decimal.isDigit_of_mem_render hdigit

theorem slash_not_mem_digits (gen : Nat) : slash ∉ generationDigits gen :=
  fun hmem => absurd (isDigit_of_mem_digits hmem) (by decide)

theorem slash_not_mem_metadataFile {gen : Nat} {token : Bytes} (h : slash ∉ token) :
    slash ∉ metadataFile gen token := by
  unfold metadataFile
  have hdash : slash ∉ ascii "-" := by decide
  have hsuffix : slash ∉ metadataSuffix := by decide
  simp [slash_not_mem_digits, hdash, h, hsuffix]

section
variable {reserved p q}

theorem slash_not_mem_append {segs : List Bytes} (h : ∀ s ∈ segs, slash ∉ s) :
    ∀ s ∈ segs ++ [metadataSegment], slash ∉ s := by
  intro s hs
  rcases List.mem_append.mp hs with hs | hs
  · exact h s hs
  · rw [List.mem_singleton.mp hs]
    exact slash_not_mem_metadataSegment

/-- A metadata file is in its own table's directory and in those of the tables whose
`metadata` directory is above its namespace. -/
theorem metadataDir_covers_iff {gen : Nat} {token : Bytes} (h : slash ∉ token) :
    metadataDir reserved p <+: metadataKey reserved q gen token ↔
      p = q ∨ p.val ++ [metadataSegment] <+: q.val := by
  rw [metadataKey_eq, metadataDir_eq, metadataDir_eq, List.append_assoc,
    List.prefix_append_right_inj,
    DirPath.prefix_file_iff (slash_not_mem_append p.slash_not_mem)
      (slash_not_mem_append q.slash_not_mem) (slash_not_mem_metadataFile h),
    List.prefix_concat_iff, List.append_left_inj, Subtype.ext_iff]

/-- A purge of a table covers the metadata files of every table whose path begins with
its own, and of the table that a table named `metadata` stands in. -/
theorem tableDir_covers_iff {gen : Nat} {token : Bytes} (h : slash ∉ token) :
    tableDir reserved p <+: metadataKey reserved q gen token ↔
      p.val = q.val ++ [metadataSegment] ∨ p.val <+: q.val := by
  rw [metadataKey_eq, metadataDir_eq, tableDir_eq, List.append_assoc,
    List.prefix_append_right_inj,
    DirPath.prefix_file_iff p.slash_not_mem (slash_not_mem_append q.slash_not_mem)
      (slash_not_mem_metadataFile h), List.prefix_concat_iff]

end

end Lights3
