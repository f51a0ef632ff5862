import GraphIngest.Foundation.Joining
import GraphIngest.Foundation.Utf8
import GraphIngest.Graph.Bundle
import GraphIngest.Ingest.Discovery
import Mathlib.Logic.Function.Basic

/-! # The extraction cache

What was made of a file is kept under the hash of its text and a digest of its
repository and path, and taken from there when a file with that key comes up again.
The hash is that of the decoded text, the extraction reads the bytes.
-/

namespace GraphIngest.Pipeline

open Foundation Text Graph Ingest

/-- The leading sixteen hex digits of the sha1 of bytes, and the hex digits of their md5. -/
structure Digests where
  sha1 : Bytes → Str
  md5 : Bytes → Str

/-- The digests are nonempty and free of collisions. -/
structure Digests.Ideal (digests : Digests) : Prop where
  filled : ∀ bytes, digests.sha1 bytes ≠ []
  sha1_injective : Function.Injective digests.sha1
  md5_injective : Function.Injective digests.md5

/-- The file of a cache entry. Its name is made of both parts, which are hex digits, with a dash
between them. -/
structure CachePath where
  sha : Str
  ident : Str
deriving DecidableEq

/-- The cache of one version: whether it is switched on, and the bundles that can be read back. -/
structure ExtractCache where
  enabled : Bool
  files : CachePath → Option Bundle

/-- A file that a run comes to; an entry made for it may fail to be written. -/
structure Visit where
  repo : Str
  relpath : Str
  source : Bytes
  written : Bool

/-- What happens to a cache: a file is indexed, or an entry gets lost. -/
inductive CacheEvent
  | indexed (visit : Visit)
  | lost (path : CachePath)

section Cache

variable (digests : Digests)

/-- `body_hash`. -/
def bodyHash (text : Str) : Str := digests.sha1 (Utf8.encode text)

/-- What stands between the repository and the path (code point 31). -/
def unitSeparator : Char := Char.ofNat 31

/-- The text that identifies a file. -/
def identity (repo relpath : Str) : Str := repo ++ unitSeparator :: relpath

/-- `_path`. -/
def cachePath (sha repo relpath : Str) : CachePath where
  sha := sha
  ident := digests.md5 (Utf8.encode (identity repo relpath))

/-- `ExtractCache.get`. -/
def ExtractCache.get (cache : ExtractCache) (sha repo relpath : Str) : Option Bundle :=
  if !cache.enabled || sha.isEmpty then none else cache.files (cachePath digests sha repo relpath)

/-- `ExtractCache.put`; nothing changes when the entry cannot be written. -/
def ExtractCache.put (cache : ExtractCache) (sha repo relpath : Str) (bundle : Bundle)
    (written : Bool) : ExtractCache :=
  if !cache.enabled || sha.isEmpty then cache
  else if written then
    { cache with
      files := Function.update cache.files (cachePath digests sha repo relpath) (some bundle) }
  else cache

/-- The file that discovery makes of these bytes at a path, if it is source. -/
def discovered (relpath : Str) (source : Bytes) : Option FileInfo :=
  discoverOne (fun bytes => bodyHash digests (Utf8.decode bytes)) (fun _ => some source) relpath

variable (extract : FileInfo → Str → Option Bundle)

/-- `_extract_one`: a file that cannot be extracted gives nothing. -/
def extractOne (file : FileInfo) (repo : Str) : Bundle := (extract file repo).getD {}

/-- The bundle of a file, from the cache if it is there, and the cache behind it. -/
def indexFile (cache : ExtractCache) (file : FileInfo) (repo : Str) (written : Bool) :
    Bundle × ExtractCache :=
  match cache.get digests file.sha repo file.relpath with
  | some bundle => (bundle, cache)
  | none =>
      let bundle := extractOne extract file repo
      (bundle, cache.put digests file.sha repo file.relpath bundle written)

/-- One event. -/
def cacheStep (cache : ExtractCache) : CacheEvent → ExtractCache
  | .indexed visit =>
      match discovered digests visit.relpath visit.source with
      | none => cache
      | some file => (indexFile digests extract cache file visit.repo visit.written).2
  | .lost path => { cache with files := Function.update cache.files path none }

/-- A cache that starts empty, after a history. -/
def cacheAfter (enabled : Bool) (history : List CacheEvent) : ExtractCache :=
  history.foldl (cacheStep digests extract) { enabled := enabled, files := fun _ => none }

end Cache

section Transparency

/-- What the cache returns for a file is what extracting its bytes gives, whatever was extracted
before and by whatever version of the extractors; and no other bytes at its path share its hash. -/
structure Transparent (digests : Digests) (repo relpath : Str) (source : Bytes) : Prop where
  served : ∀ extract enabled history file bundle, discovered digests relpath source = some file →
    (cacheAfter digests extract enabled history).get digests file.sha repo file.relpath =
        some bundle →
      bundle = extractOne extract file repo
  unshared : ∀ other file fileToo, discovered digests relpath source = some file →
    discovered digests relpath other = some fileToo → fileToo.sha = file.sha → other = source

/-- Whether a path is one that discovery reads. -/
def isSource (relpath : Str) : Bool :=
  !isMacosCruft (afterLast '/' relpath) && (sourceLang relpath).isSome

/-- No other repository and source path make the same text with a unit separator between them. -/
def SoleIdentity (repo relpath : Str) : Prop :=
  ∀ repoToo relpathToo, isSource relpathToo →
    identity repoToo relpathToo = identity repo relpath → repoToo = repo ∧ relpathToo = relpath

variable {digests : Digests} {extract : FileInfo → Str → Option Bundle} {repo relpath : Str}
  {source : Bytes} {file : FileInfo}

theorem of_discovered (found : discovered digests relpath source = some file) :
    file.relpath = relpath ∧ file.sha = bodyHash digests (Utf8.decode source) ∧
      file.source = source := by
  unfold discovered discoverOne at found
  split at found
  · cases found
  · split at found
    · cases found
    · cases found
      exact ⟨rfl, rfl, rfl⟩

theorem isSome_discovered : (discovered digests relpath source).isSome = isSource relpath := by
  unfold discovered discoverOne isSource
  cases isMacosCruft (afterLast '/' relpath) with
  | true => rfl
  | false => cases sourceLang relpath <;> rfl

/-- Texts have one hash exactly when they are one text. -/
theorem bodyHash_inj (ideal : digests.Ideal) {text other : Str} :
    bodyHash digests text = bodyHash digests other ↔ text = other :=
  (ideal.sha1_injective.comp Utf8.encode_injective).eq_iff

theorem cachePath_inj (ideal : digests.Ideal) {sha shaToo repoToo relpathToo : Str} :
    cachePath digests sha repo relpath = cachePath digests shaToo repoToo relpathToo ↔
      sha = shaToo ∧ identity repo relpath = identity repoToo relpathToo := by
  rw [cachePath, cachePath, CachePath.mk.injEq]
  exact and_congr_right fun _ => (ideal.md5_injective.comp Utf8.encode_injective).eq_iff

/-- An entry is what was made of some file with its key. -/
def Sourced (digests : Digests) (extract : FileInfo → Str → Option Bundle)
    (cache : ExtractCache) : Prop :=
  ∀ path bundle, cache.files path = some bundle → ∃ repo relpath source file,
    discovered digests relpath source = some file ∧
      path = cachePath digests file.sha repo relpath ∧ bundle = extractOne extract file repo

/-- An entry that is read is one of the files of the cache. -/
theorem files_of_get {cache : ExtractCache} {sha : Str} {bundle : Bundle}
    (read : cache.get digests sha repo relpath = some bundle) :
    cache.files (cachePath digests sha repo relpath) = some bundle := by
  unfold ExtractCache.get at read
  split at read
  · cases read
  · exact read

theorem Sourced.put {cache : ExtractCache} (sourced : Sourced digests extract cache)
    (found : discovered digests relpath source = some file) (written : Bool) :
    Sourced digests extract
      (cache.put digests file.sha repo relpath (extractOne extract file repo) written) := by
  intro path bundle held
  unfold ExtractCache.put at held
  split at held
  · exact sourced path bundle held
  · split at held
    · dsimp only at held
      by_cases same : path = cachePath digests file.sha repo relpath
      · subst same
        rw [Function.update_self] at held
        cases held
        exact ⟨repo, relpath, source, file, found, rfl, rfl⟩
      · rw [Function.update_of_ne same] at held
        exact sourced path bundle held
    · exact sourced path bundle held

/-- Every event keeps the entries sourced. -/
theorem Sourced.step {cache : ExtractCache} (sourced : Sourced digests extract cache)
    (event : CacheEvent) : Sourced digests extract (cacheStep digests extract cache event) := by
  cases event with
  | lost gone =>
      intro path bundle held
      dsimp only [cacheStep] at held
      by_cases same : path = gone
      · subst same
        rw [Function.update_self] at held
        cases held
      · rw [Function.update_of_ne same] at held
        exact sourced path bundle held
  | indexed visit =>
      rw [cacheStep]
      cases found : discovered digests visit.relpath visit.source with
      | none => exact sourced
      | some file =>
          dsimp only
          unfold indexFile
          split
          · exact sourced
          · rw [(of_discovered found).1]
            exact sourced.put found visit.written

theorem sourced_cacheAfter (enabled : Bool) (history : List CacheEvent) :
    Sourced digests extract (cacheAfter digests extract enabled history) := by
  unfold cacheAfter
  have fresh : Sourced digests extract { enabled := enabled, files := fun _ => none } := by
    intro path bundle held
    cases held
  generalize ({ enabled := enabled, files := fun _ => none } : ExtractCache) = cache at fresh ⊢
  induction history generalizing cache with
  | nil => exact fresh
  | cons event rest ih => exact ih _ (fresh.step event)

/-- A file that is indexed into an empty cache is found there. -/
theorem get_cacheAfter_singleton (ideal : digests.Ideal)
    (found : discovered digests relpath source = some file) {sha repoToo relpathToo : Str}
    (same : cachePath digests sha repoToo relpathToo = cachePath digests file.sha repo relpath) :
    (cacheAfter digests extract true [.indexed ⟨repo, relpath, source, true⟩]).get digests sha
      repoToo relpathToo = some (extractOne extract file repo) := by
  have hashed : file.sha.isEmpty = false := by
    rw [(of_discovered found).2.1]
    exact List.isEmpty_eq_false_iff.mpr (ideal.filled _)
  have missing : ∀ sha, ExtractCache.get digests ⟨true, fun _ => none⟩ sha repo relpath = none := by
    intro sha
    unfold ExtractCache.get
    split <;> rfl
  have hashedToo : sha = file.sha := (CachePath.mk.inj same).1
  rw [cacheAfter, List.foldl_cons, List.foldl_nil, cacheStep, found]
  dsimp only
  rw [indexFile, (of_discovered found).1, missing]
  dsimp only
  rw [ExtractCache.get, ExtractCache.put, same, hashedToo, hashed]
  simp only [Bool.not_true, Bool.or_self, Bool.false_eq_true, ↓reduceIte, Function.update_self]

/-- The id of one letter. -/
def letterId (letter : Char) : NodeId := ⟨[letter], letter_ne_nil letter⟩

/-- A bundle that is not empty. -/
def marked : Bundle where
  refs := [{ type := .calls, src := letterId 'f', targetName := ['g'] }]

/-- A hash that no other bytes share is that of a text without replacement characters. -/
theorem Transparent.replacement_not_mem (transparent : Transparent digests repo relpath source)
    (found : discovered digests relpath source = some file) :
    Utf8.replacement ∉ Utf8.decode source := by
  apply Utf8.decode_injective_iff.mp
  intro other same
  have readable : (discovered digests relpath other).isSome := by
    rw [isSome_discovered, ← @isSome_discovered digests relpath source, found]
    rfl
  obtain ⟨fileToo, foundToo⟩ := Option.isSome_iff_exists.mp readable
  apply transparent.unshared other file fileToo found foundToo
  rw [(of_discovered foundToo).2.1, (of_discovered found).2.1, same]

/-- A file that is always served its own bundle shares its identity with no other source file. -/
theorem Transparent.soleIdentity (transparent : Transparent digests repo relpath source)
    (ideal : digests.Ideal) (found : discovered digests relpath source = some file) :
    SoleIdentity repo relpath := by
  intro repoToo relpathToo reads same
  obtain ⟨fileToo, foundToo⟩ := Option.isSome_iff_exists.mp
    ((@isSome_discovered digests relpathToo source).trans reads)
  by_contra differ
  -- an extractor that fails on this file and on no other
  let extract : FileInfo → Str → Option Bundle := fun read repoOf =>
    if repoOf = repo ∧ read.relpath = relpath then none else some marked
  have path : cachePath digests file.sha repo relpath =
      cachePath digests fileToo.sha repoToo relpathToo := by
    rw [cachePath_inj ideal, (of_discovered found).2.1, (of_discovered foundToo).2.1]
    exact ⟨rfl, same.symm⟩
  have read := @get_cacheAfter_singleton digests extract _ _ _ _ ideal foundToo _ _ _ path
  rw [← (of_discovered found).1] at read
  have served := transparent.served extract true _ file _ found read
  have made : extract fileToo repoToo = some marked := by
    apply if_neg
    rw [(of_discovered foundToo).1]
    exact differ
  have failed : extract file repo = none := if_pos ⟨rfl, (of_discovered found).1⟩
  rw [extractOne, extractOne, made, failed] at served
  cases served

/-- What is read back for a file with an identity of its own was made of its bytes. -/
theorem served_of_sole (ideal : digests.Ideal)
    (found : discovered digests relpath source = some file)
    (whole : Utf8.replacement ∉ Utf8.decode source) (sole : SoleIdentity repo relpath)
    {enabled : Bool} {history : List CacheEvent} {bundle : Bundle}
    (read : (cacheAfter digests extract enabled history).get digests file.sha repo file.relpath =
      some bundle) : bundle = extractOne extract file repo := by
  obtain ⟨repoToo, relpathToo, sourceToo, fileToo, made, path, rfl⟩ :=
    sourced_cacheAfter enabled history _ _ (files_of_get read)
  rw [cachePath_inj ideal, (of_discovered found).2.1, (of_discovered made).2.1, bodyHash_inj ideal,
    (of_discovered found).1] at path
  have reads : isSource relpathToo := by
    rw [← @isSome_discovered digests relpathToo sourceToo, made]
    rfl
  obtain ⟨rfl, rfl⟩ := sole repoToo relpathToo reads path.2.symm
  have bytes := Utf8.decode_injective_iff.mpr whole sourceToo path.1.symm
  subst bytes
  rw [found] at made
  cases made
  rfl

/-- **Extraction cache.** It is transparent for a file exactly when the bytes of the file decode
without replacement characters and no other source file has its identity. -/
theorem transparent_iff (ideal : digests.Ideal)
    (found : discovered digests relpath source = some file) :
    Transparent digests repo relpath source ↔
      Utf8.replacement ∉ Utf8.decode source ∧ SoleIdentity repo relpath := by
  constructor
  · intro transparent
    exact ⟨transparent.replacement_not_mem found, transparent.soleIdentity ideal found⟩
  · intro sole
    refine ⟨fun extract enabled history other bundle foundToo read => ?_,
      fun other first fileToo foundFirst foundToo same => ?_⟩
    · obtain rfl := Option.some.inj (found.symm.trans foundToo)
      exact served_of_sole ideal found sole.1 sole.2 read
    · rw [(of_discovered foundFirst).2.1, (of_discovered foundToo).2.1, bodyHash_inj ideal] at same
      exact Utf8.decode_injective_iff.mpr sole.1 other same

/-- Without unit separators in the name and the path the identity is the file's own. -/
theorem soleIdentity_of_free (free : unitSeparator ∉ repo) (freeToo : unitSeparator ∉ relpath) :
    SoleIdentity repo relpath := by
  intro repoToo relpathToo _ same
  have pieces := congrArg (splitBy unitSeparator) same
  rw [identity, identity, splitBy_append, splitBy_append, splitBy_of_not_mem free,
    splitBy_of_not_mem freeToo] at pieces
  have front := @intercalate_splitBy _ _ unitSeparator repoToo
  have back := @intercalate_splitBy _ _ unitSeparator relpathToo
  cases first : splitBy unitSeparator repoToo with
  | nil => exact (splitBy_ne_nil repoToo first).elim
  | cons head rest =>
      rw [first, List.cons_append, List.singleton_append, List.cons.injEq] at pieces
      cases rest with
      | cons next more =>
          have short := congrArg List.length pieces.2
          rw [List.cons_append, List.length_cons, List.length_append,
            List.length_singleton] at short
          have some := List.length_pos_of_ne_nil (@splitBy_ne_nil _ _ unitSeparator relpathToo)
          omega
      | nil =>
          rw [List.nil_append] at pieces
          rw [first, intercalate_singleton, pieces.1] at front
          rw [pieces.2, intercalate_singleton] at back
          exact ⟨front.symm, back.symm⟩

end Transparency

section Sample

/-- A class, and the same class behind a comment with an ill-formed byte in two spellings that
decode alike. -/
def plainBytes : Bytes := Utf8.encode "class A {}".toList

def looseBytes : Bytes := [0x2F, 0x2A, 0xFF, 0x2A, 0x2F] ++ plainBytes

def looseBytesToo : Bytes := [0x2F, 0x2A, 0xEF, 0xBF, 0xBD, 0x2A, 0x2F] ++ plainBytes

/-- Bytes spelt out behind a mark, but for one key that has a value of its own. -/
def spelt (key : Bytes) (value : Str) (bytes : Bytes) : Str :=
  if bytes = key then value else '#' :: bytes.map fun byte => Char.ofNat byte.toNat

theorem spelt_injective {key : Bytes} {value : Str} (unmarked : value.head? ≠ some '#') :
    Function.Injective (spelt key value) := by
  have apart : ∀ bytes : Bytes, value ≠ '#' :: bytes.map fun byte => Char.ofNat byte.toNat := by
    intro bytes same
    exact unmarked (congrArg List.head? same)
  have letters : Function.Injective fun byte : UInt8 => Char.ofNat byte.toNat := by
    intro byte other same
    have code := congrArg Char.toNat same
    have bound := byte.toNat_lt
    have boundToo := other.toNat_lt
    dsimp only at code
    rw [Utf8.toNat_ofNat (.inl (by omega)), Utf8.toNat_ofNat (.inl (by omega))] at code
    exact UInt8.toNat_inj.mp code
  intro bytes other same
  unfold spelt at same
  split at same
  case isTrue first =>
    split at same
    case isTrue second => rw [first, second]
    case isFalse => exact (apart other same).elim
  case isFalse =>
    split at same
    case isTrue => exact (apart bytes same.symm).elim
    case isFalse => exact List.map_injective_iff.mpr letters (List.cons.inj same).2

/-- Digests that are those of the plain class and its identity, and injective. -/
def sampleDigests : Digests where
  sha1 := spelt plainBytes "839dd976c57d7e7c"
  md5 := spelt (Utf8.encode (identity "demo" "A.java")) "6fd27928b05c248fca5c54d90a4b9fed"

theorem sampleDigests_ideal : sampleDigests.Ideal where
  filled bytes := by
    change spelt _ _ bytes ≠ []
    unfold spelt
    split
    · decide
    · exact List.cons_ne_nil _ _
  sha1_injective := spelt_injective (by decide)
  md5_injective := spelt_injective (by decide)

/-- Well-formed bytes under plain names are served as they are extracted. -/
theorem transparent_plain : Transparent sampleDigests "demo" "A.java" plainBytes := by
  obtain ⟨file, found⟩ := Option.isSome_iff_exists.mp
    ((@isSome_discovered sampleDigests "A.java" plainBytes).trans (by decide +kernel))
  exact (transparent_iff sampleDigests_ideal found).mpr
    ⟨by decide +kernel, soleIdentity_of_free (by decide) (by decide)⟩

/-- The containment of the class, with its column in bytes. -/
def columnExtract (file : FileInfo) (_ : Str) : Option Bundle :=
  some
    { edges :=
        [{ type := .contains
           src := letterId 'f'
           dst := letterId 'A'
           evidenceCol := (file.source.idxOf 0x63 : Nat) }] }

/-- The class that was indexed in one spelling is served for the other, with its column. -/
theorem loose_not_transparent :
    ¬ Transparent sampleDigests "demo" "A.java" looseBytes ∧
      ∃ history file bundle, discovered sampleDigests "A.java" looseBytes = some file ∧
        (cacheAfter sampleDigests columnExtract true history).get sampleDigests file.sha "demo"
          file.relpath = some bundle ∧ bundle ≠ extractOne columnExtract file "demo" := by
  obtain ⟨file, found⟩ := Option.isSome_iff_exists.mp
    ((@isSome_discovered sampleDigests "A.java" looseBytes).trans (by decide +kernel))
  obtain ⟨fileToo, foundToo⟩ := Option.isSome_iff_exists.mp
    ((@isSome_discovered sampleDigests "A.java" looseBytesToo).trans (by decide +kernel))
  have alike : Utf8.decode looseBytesToo = Utf8.decode looseBytes := by decide +kernel
  have hashed : fileToo.sha = file.sha := by
    rw [(of_discovered foundToo).2.1, (of_discovered found).2.1, alike]
  constructor
  · intro transparent
    have same := transparent.unshared looseBytesToo file fileToo found foundToo hashed
    exact absurd same (by decide)
  · have path : cachePath sampleDigests file.sha "demo" file.relpath =
        cachePath sampleDigests fileToo.sha "demo" "A.java" := by
      rw [hashed, (of_discovered found).1]
    refine ⟨_, file, _, found,
      get_cacheAfter_singleton sampleDigests_ideal foundToo path, ?_⟩
    intro same
    have columns := congrArg (fun bundle => bundle.edges.map Edge.evidenceCol) same
    dsimp only [extractOne, columnExtract, Option.getD_some, List.map_cons, List.map_nil] at columns
    rw [(of_discovered found).2.2, (of_discovered foundToo).2.2] at columns
    exact absurd columns (by decide)

end Sample

end GraphIngest.Pipeline
