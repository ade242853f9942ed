import Mathlib.Data.List.Nodup
import ShaderInline.Proofs.Config.Json
import ShaderInline.Proofs.Toml.Document

/-! # Reading settings that have been written as TOML

TOML keeps the tables in the order of their keys and cannot spell a define
without a value. Everything else comes back as it was written.
-/

namespace ShaderInline

theorem find?_key_eq_some_iff {α : Type} {es : List (Text × α)} {e : Text × α} {k : Text}
    (h : (es.map (·.1)).Nodup) : es.find? (fun e => e.1 == k) = some e ↔ e ∈ es ∧ e.1 = k := by
  constructor
  · intro hfind
    have hkey := List.find?_some hfind
    exact ⟨List.mem_of_find?_eq_some hfind, eq_of_beq hkey⟩
  · rintro ⟨hmem, rfl⟩
    induction es with
    | nil => cases hmem
    | cons f es ih =>
      obtain ⟨hfresh, hrest⟩ := List.nodup_cons.1 h
      rcases List.mem_cons.1 hmem with rfl | hmem
      · exact List.find?_cons_of_pos (beq_self_eq_true _)
      · have hne : f.1 ≠ e.1 := by
          intro heq
          exact hfresh (List.mem_map.2 ⟨e, hmem, heq.symm⟩)
        rw [List.find?_cons_of_neg (by simpa using hne), ih hrest hmem]

theorem find?_key_perm {α : Type} {es es' : List (Text × α)} (hperm : es.Perm es')
    (hnodup : (es'.map (·.1)).Nodup) (k : Text) :
    es.find? (fun e => e.1 == k) = es'.find? (fun e => e.1 == k) := by
  ext e
  rw [find?_key_eq_some_iff ((hperm.map _).nodup_iff.2 hnodup), find?_key_eq_some_iff hnodup,
    hperm.mem_iff]

theorem Json.record?_perm {ms ms' : List (Text × Json)} (hperm : ms.Perm ms')
    (hnodup : (ms'.map (·.1)).Nodup) (openEnded : Bool) (names : List Text) :
    (obj ms).record? openEnded names = (obj ms').record? openEnded names := by
  have hcount (k : Text) : (ms.filter fun m => m.1 == k).length =
      (ms'.filter fun m => m.1 == k).length := (hperm.filter _).length_eq
  simp only [record?, hcount, find?_key_perm hperm hnodup]

namespace Roots

def sorted (r : Roots Text) : Roots Text where
  entries := r.entries.mergeSort fun a b => Text.le a.1 b.1
  nodup := (((List.mergeSort_perm _ _).map _).nodup_iff).2 r.nodup

theorem sorted_perm (r : Roots Text) : r.sorted.entries.Perm r.entries := List.mergeSort_perm _ _

theorem pairwise_sorted (r : Roots Text) : r.sorted.entries.Pairwise fun a b => a.1 < b.1 := by
  have hle : r.sorted.entries.Pairwise fun a b => Text.le a.1 b.1 = true := by
    apply List.pairwise_mergeSort
    · intro a b c hab hbc
      exact Text.le_trans hab hbc
    · intro a b
      exact Text.le_total a.1 b.1
  have hne : r.sorted.entries.Pairwise fun a b => a.1 ≠ b.1 := List.pairwise_map.1 r.sorted.nodup
  exact (hle.and hne).imp fun h => Text.lt_of_le h.1 h.2

theorem get?_sorted (r : Roots Text) (ns : Text) : r.sorted.get? ns = r.get? ns := by
  rw [get?, get?, find?_key_perm r.sorted_perm r.nodup]

end Roots

theorem nodup_names (d : Defines) : (d.entries.map (·.1)).Nodup := by
  refine List.pairwise_map.2 (d.sorted.imp ?_)
  intro a b hlt heq
  exact List.lt_irrefl _ (heq ▸ hlt)

def Defines.valued (d : Defines) : Defines where
  entries := d.entries.filter (·.2.isSome)
  sorted := d.sorted.filter _

namespace Config

/-- What TOML keeps of the settings. -/
def tomlKept (c : Config) : Config :=
  { c with roots := c.roots.sorted, defines := c.defines.valued }

/-- Two settings with the same roots, whatever their order, and the same of everything else. -/
def Same (c c' : Config) : Prop :=
  (∀ ns, c.roots.get? ns = c'.roots.get? ns) ∧
    { c with roots := .empty } = { c' with roots := .empty }

theorem same_tomlKept_iff {c : Config} :
    c.tomlKept.Same c ↔ ∀ e ∈ c.defines.entries, e.2.isSome = true := by
  constructor
  · rintro ⟨-, heq⟩
    have hdefines : c.defines.valued = c.defines := congrArg Config.defines heq
    exact List.filter_eq_self.1 (congrArg Defines.entries hdefines)
  · intro h
    have hdefines : c.defines.valued = c.defines := Defines.ext (List.filter_eq_self.2 h)
    refine ⟨c.roots.get?_sorted, ?_⟩
    rw [tomlKept, hdefines]

open Toml

def textAssignment (key t : Text) : Assignment := ⟨key, string t, .str t, spells_string t⟩

def boolAssignment (key : Text) (b : Bool) : Assignment := ⟨key, tomlBool b, .bool b, spells_bool b⟩

def listAssignment (key : Text) (ts : List Text) : Assignment :=
  ⟨key, strings ts, .arr (ts.map .str), spells_strings ts⟩

def outline (c : Config) (hdepth : c.maxImportDepth < Json.limit64) : Outline where
  plain := [
    textAssignment "namespace".toList c.ns,
    textAssignment "includeDir".toList c.includeDir,
    boolAssignment "stripNonAscii".toList c.stripNonAscii,
    ⟨"maxImportDepth".toList, Text.decimal c.maxImportDepth, .nat c.maxImportDepth,
      spells_decimal hdepth⟩]
  tables := [
    ("roots".toList, c.roots.entries.map fun e => textAssignment e.1 e.2),
    ("lineDirectives".toList, [
      boolAssignment "enabled".toList c.lines.enabled,
      textAssignment "marker".toList c.lines.marker]),
    ("defines".toList, c.defines.valued.entries.map fun e => textAssignment e.1 (e.2.getD [])),
    ("files".toList, [
      listAssignment "include".toList c.files.includes,
      listAssignment "exclude".toList c.files.excludes])]
  nodup := by
    change (["namespace", "includeDir", "stripNonAscii", "maxImportDepth", "roots",
      "lineDirectives", "defines", "files"].map String.toList).Nodup
    decide
  nodup_tables := by
    simp only [List.forall_mem_cons, List.map_map]
    refine ⟨c.roots.nodup, ?_, nodup_names c.defines.valued, ?_, List.forall_mem_nil _⟩
    · change (["enabled", "marker"].map String.toList).Nodup
      decide
    · change (["include", "exclude"].map String.toList).Nodup
      decide

theorem flatMap_valued {write : Text × Option Text → Text} (es : List (Text × Option Text))
    (hsome : ∀ name value, write (name, some value) = (textAssignment name value).line)
    (hnone : ∀ name, write (name, none) = []) :
    es.flatMap write = ((es.filter (·.2.isSome)).map fun e =>
      textAssignment e.1 (e.2.getD [])).flatMap Assignment.line := by
  induction es with
  | nil => rfl
  | cons e es ih =>
    rcases e with ⟨name, _ | value⟩
    · rw [List.flatMap_cons, hnone, ih]
      rfl
    · rw [List.flatMap_cons, hsome, ih]
      rfl

theorem record?_members (d : Outline) (openEnded : Bool) (names : List Text) :
    (Json.obj (membersToJson d.members)).record? openEnded names =
      (Json.obj (d.entries.map fun m => (m.1, m.2.toJson))).record? openEnded names := by
  rw [membersToJson_eq_map]
  apply Json.record?_perm ((Members.ofList_perm d.nodup).map _)
  rw [List.map_map]
  exact d.nodup

theorem renderToml_eq (c : Config) (hdepth : c.maxImportDepth < Json.limit64) :
    c.renderToml = (c.outline hdepth).text := by
  have hroots : (c.roots.entries.flatMap fun e => tomlLine (Toml.key e.1) (Toml.string e.2)) =
      (c.roots.entries.map fun e => textAssignment e.1 e.2).flatMap Assignment.line := by
    rw [List.flatMap_map]
    rfl
  rw [renderToml, hroots, flatMap_valued c.defines.entries]
  · simp only [outline, Outline.text, tableLines, List.flatMap_cons, List.flatMap_nil,
      List.append_nil, List.append_assoc]
    rfl
  · intro name value
    rfl
  · intro name
    rfl

/-- A table of texts is read in the order of its keys. -/
theorem membersToJson_texts {es es' : List (Text × Text)} (hnodup : (es.map (·.1)).Nodup)
    (hperm : es'.Perm es) (hsorted : es'.Pairwise fun a b => a.1 < b.1) :
    membersToJson (Members.ofList ((es.map fun e => textAssignment e.1 e.2).map
      Assignment.entry)) = es'.map fun e => (e.1, .str e.2) := by
  have hentries (l : List (Text × Text)) :
      (l.map fun e => textAssignment e.1 e.2).map Assignment.entry =
        l.map fun e => (e.1, .value (.str e.2)) := by
    rw [List.map_map]
    rfl
  rw [hentries, Members.ofList_eq _ (hperm.map _), membersToJson_eq_map, List.map_map]
  · rfl
  · exact List.pairwise_map.2 hsorted
  · rw [List.map_map]
    exact hnodup

theorem rootsOf?_outline (r : Roots Text) :
    rootsOf? (.obj (membersToJson (Members.ofList ((r.entries.map fun e =>
      textAssignment e.1 e.2).map Assignment.entry)))) = some r.sorted := by
  rw [membersToJson_texts r.nodup r.sorted_perm r.pairwise_sorted, rootsOf?_table,
    Roots.ext (Roots.entries_ofList r.sorted.nodup)]

theorem definesOf?_outline (d : Defines) :
    definesOf? (.obj (membersToJson (Members.ofList ((d.valued.entries.map fun e =>
      textAssignment e.1 (e.2.getD [])).map Assignment.entry)))) = some d.valued := by
  have hmap : (d.valued.entries.map fun e => textAssignment e.1 (e.2.getD [])) =
      (d.valued.entries.map fun e => (e.1, e.2.getD [])).map fun e => textAssignment e.1 e.2 := by
    rw [List.map_map]
    rfl
  have hsorted : (d.valued.entries.map fun e => (e.1, e.2.getD [])).Pairwise
      fun a b => a.1 < b.1 := List.pairwise_map.2 d.valued.sorted
  have hnodup : ((d.valued.entries.map fun e => (e.1, e.2.getD [])).map (·.1)).Nodup := by
    rw [List.map_map]
    exact nodup_names d.valued
  have htable : ((d.valued.entries.map fun e => (e.1, e.2.getD [])).map fun e =>
      (e.1, Json.str e.2)) = d.valued.entries.map fun e => (e.1, optionalText e.2) := by
    rw [List.map_map]
    apply List.map_congr_left
    rintro ⟨name, _ | value⟩ he
    · cases (List.mem_filter.1 he).2
    · rfl
  rw [hmap, membersToJson_texts hnodup (.refl _) hsorted, htable, definesOf?_table,
    Defines.ext (Defines.entries_ofList d.valued.sorted)]

theorem ofJson?_outline {c : Config} (hbase : c.baseDir = none)
    (hdepth : c.maxImportDepth < Json.limit64) :
    ofJson? true (.obj (membersToJson (c.outline hdepth).members)) = some c.tomlKept := by
  apply ofJson?_eq (c := c.tomlKept) hbase hdepth
  · rw [record?_members]
    rfl
  · exact rootsOf?_outline c.roots
  · rfl
  · exact definesOf?_outline c.defines
  · exact filesOf?_eq rfl

theorem parseToml?_renderToml {c : Config} (hbase : c.baseDir = none)
    (hdepth : c.maxImportDepth < Json.limit64) : parseToml? c.renderToml = some c.tomlKept := by
  rw [parseToml?, renderToml_eq c hdepth, Outline.parse?_text, Option.bind_some,
    ofJson?_outline hbase hdepth]

/-- Settings that do not know the file they come from are read back but for their defines without
a value. They are the same settings just if there is no such define. -/
theorem parse?_render_toml {c : Config} (hbase : c.baseDir = none)
    (hdepth : c.maxImportDepth < Json.limit63) :
    parse? .toml (c.render .toml) = some c.tomlKept ∧
      (c.tomlKept.Same c ↔ ∀ e ∈ c.defines.entries, e.2.isSome = true) := by
  constructor
  · exact parseToml?_renderToml hbase (Nat.lt_trans hdepth (by decide))
  · exact same_tomlKept_iff

/-- Settings with a string in each of the four forms, roots out of order and defines with a
value. -/
def tabled : Config :=
  { standard with
    ns := "it's \"\"\"".toList
    includeDir := "a\\b".toList
    roots := .ofList [("z".toList, "\r\n\x7f'''".toList), ([], "'\\'\n".toList)]
    defines := .ofList [("B".toList, some []), ("A b".toList, some "1".toList)]
    files := ⟨["*.frag".toList, "*.vert".toList], ["x".toList]⟩ }

theorem parse?_render_toml_tabled :
    ∃ c, parse? .toml (tabled.render .toml) = some c ∧ c.Same tabled := by
  have hread := parse?_render_toml (c := tabled) rfl (by decide)
  exact ⟨_, hread.1, hread.2.2 (by decide)⟩

def valueless : Config := { standard with defines := .ofList [("A".toList, none)] }

theorem parse?_render_toml_valueless :
    ¬ ∃ c, parse? .toml (valueless.render .toml) = some c ∧ c.Same valueless := by
  rintro ⟨c, hread, hsame⟩
  have hkept : parse? .toml (valueless.render .toml) = some valueless.tomlKept :=
    parseToml?_renderToml rfl (by decide)
  obtain rfl : valueless.tomlKept = c := Option.some.inj (hkept.symm.trans hread)
  have hvalue := same_tomlKept_iff.1 hsame ("A".toList, none) List.mem_cons_self
  cases hvalue

end Config
end ShaderInline
