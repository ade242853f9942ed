import ShaderInline.Define
import ShaderInline.Files.Path
import ShaderInline.Glob
import ShaderInline.LineDirective

/-! # Configuration -/

namespace ShaderInline

/-- Directories by namespace, each namespace once, in the order in which they were named. Settings
name them by texts, the files of a build lie below paths. -/
@[ext]
structure Roots (α : Type) where
  entries : List (Text × α)
  nodup : (entries.map (·.1)).Nodup

namespace Roots

variable {α β : Type}

def empty : Roots α := ⟨[], .nil⟩

/-- Give a namespace a directory, at its old place if it has one. -/
def insertEntry (ns : Text) (dir : α) : List (Text × α) → List (Text × α)
  | [] => [(ns, dir)]
  | e :: es => if e.1 = ns then (ns, dir) :: es else e :: insertEntry ns dir es

theorem mem_keys_insertEntry {ns key : Text} {dir : α} :
    ∀ {es : List (Text × α)}, key ∈ (insertEntry ns dir es).map (·.1) →
      key = ns ∨ key ∈ es.map (·.1)
  | [], h => by simpa [insertEntry] using h
  | e :: es, h => by
    unfold insertEntry at h
    split at h
    · rcases List.mem_cons.mp h with h | h
      · exact .inl h
      · exact .inr (List.mem_cons_of_mem _ h)
    · rcases List.mem_cons.mp h with h | h
      · exact .inr (h ▸ List.mem_cons_self)
      · exact (mem_keys_insertEntry h).imp id (List.mem_cons_of_mem _)

theorem insertEntry_nodup (ns : Text) (dir : α) :
    ∀ {es : List (Text × α)}, (es.map (·.1)).Nodup → ((insertEntry ns dir es).map (·.1)).Nodup
  | [], _ => by simp [insertEntry]
  | e :: es, h => by
    obtain ⟨fresh, rest⟩ := List.nodup_cons.mp h
    unfold insertEntry
    split
    next eq => exact List.nodup_cons.mpr ⟨eq ▸ fresh, rest⟩
    next ne =>
      refine List.nodup_cons.mpr ⟨fun mem => ?_, insertEntry_nodup ns dir rest⟩
      exact (mem_keys_insertEntry mem).elim ne fresh

def insert (r : Roots α) (ns : Text) (dir : α) : Roots α :=
  ⟨insertEntry ns dir r.entries, insertEntry_nodup ns dir r.nodup⟩

def ofList (es : List (Text × α)) : Roots α := es.foldl (fun r e => r.insert e.1 e.2) empty

def get? (r : Roots α) (ns : Text) : Option α :=
  (r.entries.find? fun e => e.1 == ns).map (·.2)

def map (f : α → β) (r : Roots α) : Roots β where
  entries := r.entries.map fun e => (e.1, f e.2)
  nodup := by simpa [Function.comp_def] using r.nodup

end Roots

structure LineSettings where
  enabled : Bool
  marker : Text
  deriving DecidableEq, Repr

def LineSettings.standard : LineSettings := ⟨true, LineDirective.standardMarker⟩

structure FilePatterns where
  includes : List Text
  excludes : List Text
  deriving DecidableEq, Repr

def FilePatterns.standard : FilePatterns :=
  ⟨["vert", "frag", "geom", "tesc", "tese", "comp"].map fun ext => "**/*.".toList ++ ext.toList, []⟩

structure Config where
  /-- The namespace of references that name none. -/
  ns : Text
  /-- Where plain file names are looked for. -/
  includeDir : Text
  roots : Roots Text
  lines : LineSettings
  stripNonAscii : Bool
  maxImportDepth : Nat
  defines : Defines
  files : FilePatterns
  /-- The directory of the file that the settings come from. -/
  baseDir : Option Path

namespace Config

def standard : Config where
  ns := Reference.Options.standard.ns
  includeDir := Reference.Options.standard.includeDir
  roots := .empty
  lines := .standard
  stripNonAscii := true
  maxImportDepth := 32
  defines := .empty
  files := .standard
  baseDir := none

def checkPatterns : List Text → Except Failure Unit
  | [] => .ok ()
  | t :: ts =>
    match Glob.parse t with
    | .ok _ => checkPatterns ts
    | .error p =>
      .error (.config ("invalid file pattern '".toList ++ t ++ "': ".toList ++ p.message))

def validate (c : Config) : Except Failure Unit :=
  if c.ns.isEmpty then .error (.config "namespace must not be empty".toList)
  else if c.lines.enabled && (Text.trim c.lines.marker).isEmpty then
    .error (.config "lineDirectives.marker must not be empty".toList)
  else
    match checkPatterns (c.files.includes ++ c.files.excludes) with
    | .error f => .error f
    | .ok () => Defines.checkAll c.defines.entries

def referenceOptions (c : Config) : Reference.Options := ⟨c.ns, c.includeDir⟩

def lineDirective? (c : Config) : Option LineDirective :=
  if c.lines.enabled then some (.ofMarker c.lines.marker) else none

end Config
end ShaderInline
