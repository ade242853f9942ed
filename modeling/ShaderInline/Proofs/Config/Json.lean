import Mathlib.Data.List.Basic
import ShaderInline.Config.Format
import ShaderInline.Proofs.Json.RoundTrip

/-! # Reading settings that have been written as JSON

Roots come back in their order and defines in the order of their names, so the
settings that are read are the ones that were written. Nothing is asked of their
texts.
-/

namespace ShaderInline

namespace Roots

variable {α : Type}

theorem insertEntry_of_fresh {ns : Text} {dir : α} : ∀ {es : List (Text × α)},
    ns ∉ es.map (·.1) → insertEntry ns dir es = es ++ [(ns, dir)]
  | [], _ => rfl
  | e :: es, h => by
    rw [List.map_cons, List.mem_cons, not_or] at h
    rw [insertEntry, if_neg (Ne.symm h.1), insertEntry_of_fresh h.2, List.cons_append]

theorem entries_foldl_insert : ∀ {es : List (Text × α)} {r : Roots α},
    ((r.entries ++ es).map (·.1)).Nodup →
      (es.foldl (fun r e => r.insert e.1 e.2) r).entries = r.entries ++ es
  | [], r, _ => (List.append_nil _).symm
  | e :: es, r, h => by
    have hfresh : e.1 ∉ r.entries.map (·.1) := by
      intro hmem
      rw [List.map_append] at h
      exact List.disjoint_of_nodup_append h hmem (List.mem_cons_self)
    have hinsert : (r.insert e.1 e.2).entries = r.entries ++ [e] := insertEntry_of_fresh hfresh
    rw [List.foldl_cons, entries_foldl_insert, hinsert, List.append_assoc, List.singleton_append]
    rw [hinsert, List.append_assoc, List.singleton_append]
    exact h

theorem entries_ofList {es : List (Text × α)} (h : (es.map (·.1)).Nodup) :
    (ofList es).entries = es := entries_foldl_insert h

end Roots

namespace Defines

theorem insertEntry_of_last {name : Text} {value : Option Text} :
    ∀ {es : List (Text × Option Text)}, (∀ e ∈ es, e.1 < name) →
      insertEntry name value es = es ++ [(name, value)]
  | [], _ => rfl
  | e :: es, h => by
    have hlt : e.1 < name := h e List.mem_cons_self
    have hne : name ≠ e.1 := by
      intro heq
      exact List.lt_irrefl _ (heq ▸ hlt)
    rw [insertEntry, if_neg (List.lt_asymm hlt), if_neg hne,
      insertEntry_of_last fun f hf => h f (List.mem_cons_of_mem e hf), List.cons_append]

theorem entries_foldl_insert : ∀ {es : List (Text × Option Text)} {d : Defines},
    ((d.entries ++ es).Pairwise fun a b => a.1 < b.1) →
      (es.foldl (fun d e => d.insert e.1 e.2) d).entries = d.entries ++ es
  | [], d, _ => (List.append_nil _).symm
  | e :: es, d, h => by
    have hlast : ∀ f ∈ d.entries, f.1 < e.1 := by
      intro f hf
      exact (List.pairwise_append.1 h).2.2 f hf e List.mem_cons_self
    have hinsert : (d.insert e.1 e.2).entries = d.entries ++ [e] := insertEntry_of_last hlast
    rw [List.foldl_cons, entries_foldl_insert, hinsert, List.append_assoc, List.singleton_append]
    rw [hinsert, List.append_assoc, List.singleton_append]
    exact h

theorem entries_ofList {es : List (Text × Option Text)}
    (h : es.Pairwise fun a b => a.1 < b.1) : (ofList es).entries = es := entries_foldl_insert h

end Defines

theorem mapM_map_eq_some {α β : Type} {f : α → β} {g : β → Option α}
    (h : ∀ a, g (f a) = some a) (l : List α) : (l.map f).mapM g = some l := by
  induction l with
  | nil => rfl
  | cons a l ih =>
    rw [List.map_cons, List.mapM_cons, h, ih]
    rfl

namespace Json

theorem isPlain_texts : ∀ ts : List Text, (arr (ts.map str)).IsPlain
  | [] => trivial
  | _ :: ts => ⟨trivial, isPlain_texts ts⟩

theorem isPlain_table {α : Type} {f : α → Text × Json} (hf : ∀ a, (f a).2.IsPlain) :
    ∀ l : List α, (obj (l.map f)).IsPlain
  | [] => trivial
  | a :: l => ⟨hf a, isPlain_table hf l⟩

end Json

namespace Config

variable {c : Config} {openEnded : Bool}

theorem isPlain_optionalText : ∀ value : Option Text, (optionalText value).IsPlain
  | none => trivial
  | some _ => trivial

theorem isPlain_toJson (hdepth : c.maxImportDepth < Json.limit64) : c.toJson.IsPlain := by
  have hroots := Json.isPlain_table (f := fun e : Text × Text => (e.1, .str e.2))
    (fun _ => trivial) c.roots.entries
  have hdefines := Json.isPlain_table (f := fun e : Text × Option Text => (e.1, optionalText e.2))
    (fun e => isPlain_optionalText e.2) c.defines.entries
  have hnat : (Json.nat c.maxImportDepth).IsPlain :=
    ⟨by omega, Int.ofNat_lt.2 hdepth⟩
  exact ⟨trivial, trivial, hroots, ⟨trivial, trivial, trivial⟩, trivial, hnat, hdefines,
    ⟨Json.isPlain_texts _, Json.isPlain_texts _, trivial⟩, trivial⟩

theorem rootsOf?_table (es : List (Text × Text)) :
    rootsOf? (.obj (es.map fun e => (e.1, .str e.2))) = some (.ofList es) := by
  rw [rootsOf?, mapM_map_eq_some, Option.map_some]
  intro e
  rfl

theorem definesOf?_table (es : List (Text × Option Text)) :
    definesOf? (.obj (es.map fun e => (e.1, optionalText e.2))) = some (.ofList es) := by
  rw [definesOf?, mapM_map_eq_some, Option.map_some]
  rintro ⟨name, value⟩
  cases value with
  | none => rfl
  | some value => rfl

theorem texts?_table (ts : List Text) : texts? (.arr (ts.map .str)) = some ts := by
  apply mapM_map_eq_some
  intro t
  rfl

theorem natBelow?_nat {n : Nat} (h : n < Json.limit64) :
    Json.natBelow? Json.limit64 (.nat n) = some n := by
  have hlt : (n : Int) < Json.limit64 := Int.ofNat_lt.2 h
  simp [Json.natBelow?, Json.nat, hlt]

theorem field_some {α : Type} (standard : α) (read : Json → Option α) (j : Json) :
    field standard read (some j) = read j := by
  rw [field]

theorem filesOf?_eq {j : Json} {f : FilePatterns}
    (hrecord : j.record? openEnded fileFieldNames =
      some [some (.arr (f.includes.map .str)), some (.arr (f.excludes.map .str))]) :
    filesOf? openEnded j = some f := by
  rw [filesOf?, hrecord]
  simp only [field_some, texts?_table]
  rfl

theorem ofJson?_eq {j roots lines defines files : Json} (hbase : c.baseDir = none)
    (hdepth : c.maxImportDepth < Json.limit64)
    (hrecord : j.record? openEnded fieldNames = some [some (.str c.ns), some (.str c.includeDir),
      some roots, some lines, some (.bool c.stripNonAscii), some (.nat c.maxImportDepth),
      some defines, some files])
    (hroots : rootsOf? roots = some c.roots) (hlines : linesOf? openEnded lines = some c.lines)
    (hdefines : definesOf? defines = some c.defines)
    (hfiles : filesOf? openEnded files = some c.files) : ofJson? openEnded j = some c := by
  rw [ofJson?, hrecord]
  simp only [field_some, hroots, hlines, hdefines, hfiles, natBelow?_nat hdepth, Json.text?,
    Json.bool?, Option.pure_def, Option.bind_eq_bind, Option.bind_some, ← hbase]

theorem ofJson?_toJson (hbase : c.baseDir = none) (hdepth : c.maxImportDepth < Json.limit64) :
    ofJson? openEnded c.toJson = some c := by
  apply ofJson?_eq hbase hdepth rfl
  · rw [rootsOf?_table, Roots.ext (Roots.entries_ofList c.roots.nodup)]
  · rfl
  · rw [definesOf?_table, Defines.ext (Defines.entries_ofList c.defines.sorted)]
  · exact filesOf?_eq rfl

/-- Settings that do not know the file they come from are read back as they were written. -/
theorem parse?_render_json (hbase : c.baseDir = none) (hdepth : c.maxImportDepth < Json.limit64) :
    parse? .json (c.render .json) = some c := by
  rw [parse?, render, parseJson?, renderJson, Json.parse?_pretty (isPlain_toJson hdepth),
    Option.bind_some, ofJson?_toJson hbase hdepth]

/-- Settings with roots out of order, an empty name, a define without a value and texts that
need escapes. -/
def quoted : Config :=
  { standard with
    ns := "a\"b\\".toList
    includeDir := "é\n\t".toList
    roots := .ofList [("z".toList, "/z".toList), ([], "\r".toList), ("a".toList, [])]
    maxImportDepth := Json.limit64 - 1
    defines := .ofList [("B".toList, none), ("A".toList, some "/*\x00*/".toList)]
    files := ⟨[], ["\x7f".toList, []]⟩ }

theorem parse?_render_json_quoted : parse? .json (quoted.render .json) = some quoted :=
  parse?_render_json rfl (by decide)

end Config
end ShaderInline
