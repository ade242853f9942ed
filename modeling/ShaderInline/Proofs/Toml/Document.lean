import ShaderInline.Proofs.Toml.Table
import ShaderInline.Proofs.Toml.Values

/-! # Reading TOML documents that have been written

A document starts with plain assignments and goes on with tables of them. If no
key occurs twice, it is read into a table that holds just the values that its
texts spell. A line is read in one step, so the length of the document bounds the
steps.
-/

namespace ShaderInline.Toml

structure Assignment where
  key : Text
  text : Text
  value : Json
  spells : Spells text value

namespace Assignment

def line (a : Assignment) : Text := Toml.key a.key ++ " = ".toList ++ a.text ++ ['\n']

def entry (a : Assignment) : Text × Entry := (a.key, .value a.value)

end Assignment

def headerLine (name : Text) : Text := "\n[".toList ++ key name ++ "]\n".toList

section Lines

variable {header : List Text} {ms ms' r : Members} {t u v rest : Text} {ks : List Text} {j : Json}

theorem lines?_assignment {c : Char} {cs : Text} (fuel : Nat)
    (ht : skipLines (t.length + 1) t = some (c :: cs)) (hc : c ≠ '[')
    (hkey : key? (c :: cs) = some (ks, '=' :: u))
    (hvalue : value? (cs.length + 2) maxDepth (skipBlanks u) = some (j, v))
    (hms : Members.within header (Members.assign j ks) ms = some ms')
    (hend : endLine? v = some rest) :
    lines? (fuel + 1) header ms t = lines? fuel header ms' rest := by
  rw [lines?, ht]
  simp [hc, hkey, hvalue, hms, hend]

theorem lines?_header {c : Char} {cs : Text} (fuel : Nat)
    (ht : skipLines (t.length + 1) t = some ('[' :: c :: cs)) (hc : c ≠ '[')
    (hkey : key? (c :: cs) = some (ks, ']' :: u)) (hms : Members.openTable ks ms = some ms')
    (hend : endLine? u = some rest) :
    lines? (fuel + 1) header ms t = lines? fuel ks ms' rest := by
  rw [lines?, ht]
  simp [hc, hkey, hms, hend]

/-- The lines of a text turn one table into another. -/
def ReadsTo (header : List Text) (ms : Members) (t : Text) (r : Members) : Prop :=
  ∀ fuel, t.length < fuel → lines? fuel header ms t = some r

theorem readsTo_nil (header : List Text) (ms : Members) : ReadsTo header ms [] ms := by
  intro fuel hfuel
  cases fuel with
  | zero => exact absurd hfuel (Nat.not_lt_zero _)
  | succ fuel => rfl

theorem skipBlanks_spelled (hv : Spells v j) (rest : Text) :
    skipBlanks (' ' :: (v ++ '\n' :: rest)) = v ++ '\n' :: rest := by
  rw [skipBlanks_cons rfl]
  cases v with
  | nil => exact skipBlanks_of_not rfl rest
  | cons c v => exact skipBlanks_of_not (hv.1 c rfl) _

theorem readsTo_line {a : Assignment}
    (hms : Members.within header (Members.assign a.value [a.key]) ms = some ms')
    (h : ReadsTo header ms' rest r) : ReadsTo header ms (a.line ++ rest) r := by
  intro fuel hfuel
  have hline : a.line ++ rest = key a.key ++ ' ' :: '=' :: ' ' :: (a.text ++ '\n' :: rest) := by
    simp [Assignment.line]
  have hkey := key?_key a.key (' ' :: '=' :: ' ' :: (a.text ++ '\n' :: rest))
    (by rintro c ⟨⟩; rfl) (d := '=') (by decide) rfl
  rw [hline] at hfuel ⊢
  obtain ⟨c, cs, hc, hstart⟩ := exists_key a.key
  rw [hc, List.cons_append] at hkey hfuel ⊢
  simp only [List.length_cons, List.length_append] at hfuel
  have hblank : isBlank c = false := by
    simp [isBlank, hstart ' ' (by decide), hstart '\t' (by decide)]
  cases fuel with
  | zero => exact absurd hfuel (Nat.not_lt_zero _)
  | succ fuel =>
    rw [lines?_assignment fuel _ (hstart '[' (by decide)) hkey _ hms (endLine?_newLine rest)]
    · exact h fuel (by omega)
    · exact skipLines_of_head hblank (hstart '#' (by decide))
        ⟨hstart '\n' (by decide), hstart '\r' (by decide)⟩ _ _
    · rw [skipBlanks_spelled a.spells]
      apply a.spells.2
      simp only [List.length_cons, List.length_append]
      omega

theorem readsTo_header {name : Text} (hms : Members.openTable [name] ms = some ms')
    (h : ReadsTo [name] ms' rest r) : ReadsTo header ms (headerLine name ++ rest) r := by
  intro fuel hfuel
  have hline : headerLine name ++ rest = '\n' :: '[' :: (key name ++ ']' :: '\n' :: rest) := by
    simp [headerLine]
  have hkey := key?_key name (']' :: '\n' :: rest) (by rintro c ⟨⟩; rfl) (d := ']')
    (by decide) rfl
  rw [hline] at hfuel ⊢
  obtain ⟨c, cs, hc, hstart⟩ := exists_key name
  rw [hc, List.cons_append] at hkey hfuel ⊢
  simp only [List.length_cons, List.length_append] at hfuel
  cases fuel with
  | zero => exact absurd hfuel (Nat.not_lt_zero _)
  | succ fuel =>
    rw [lines?_header fuel _ (hstart '[' (by decide)) hkey hms (endLine?_newLine rest)]
    · exact h fuel (by omega)
    · rw [List.length_cons, skipLines_newLine]
      exact skipLines_of_head rfl (by decide) (by decide) _ _

end Lines

/-! ### Runs of lines -/

open Members

section Runs

variable {header : List Text} {r : Members} {rest : Text}

/-- The lines below a header fill the table that the header has opened. The function puts that
table into the document. -/
theorem readsTo_lines {put : Members → Members}
    (hput : ∀ f inner, within header f (put inner) = (f inner).map put)
    (as : List Assignment) (done : List (Text × Entry))
    (hnodup : ((done ++ as.map Assignment.entry).map (·.1)).Nodup)
    (h : ReadsTo header (put (ofList (done ++ as.map Assignment.entry))) rest r) :
    ReadsTo header (put (ofList done)) (as.flatMap Assignment.line ++ rest) r := by
  induction as generalizing done with
  | nil => simpa using h
  | cons a as ih =>
    have hsnoc : done ++ (a :: as).map Assignment.entry =
        (done ++ [a.entry]) ++ as.map Assignment.entry := by simp
    have hfresh : a.key ∉ done.map (·.1) := fresh_of_nodup hnodup
    rw [hsnoc] at hnodup h
    rw [List.flatMap_cons, List.append_assoc]
    refine readsTo_line ?_ (ih _ hnodup h)
    rw [hput, assign, assignWithin, get?_ofList hfresh]
    simp [Assignment.entry, ofList_concat]

def tableLines (t : Text × List Assignment) : Text :=
  headerLine t.1 ++ t.2.flatMap Assignment.line

def tableEntry (t : Text × List Assignment) : Text × Entry :=
  (t.1, .table .header (ofList (t.2.map Assignment.entry)))

theorem readsTo_table {t : Text × List Assignment} {done : List (Text × Entry)}
    (hfresh : t.1 ∉ done.map (·.1)) (hnodup : (t.2.map Assignment.key).Nodup)
    (h : ReadsTo [t.1] (ofList (done ++ [tableEntry t])) rest r) :
    ReadsTo header (ofList done) (tableLines t ++ rest) r := by
  have hopen : openTable [t.1] (ofList done) =
      some ((ofList done).set t.1 (.table .header [])) := by
    rw [openTable, get?_ofList hfresh]
  have hput (f : Members → Option Members) (inner : Members) :
      within [t.1] f ((ofList done).set t.1 (.table .header inner)) =
        (f inner).map fun inner => (ofList done).set t.1 (.table .header inner) := by
    simp only [within, descend, get?_set_self, set_set]
  rw [tableLines, List.append_assoc]
  apply readsTo_header hopen
  rw [tableEntry, ofList_concat] at h
  refine readsTo_lines hput t.2 [] ?_ h
  simpa [Assignment.entry, Function.comp_def] using hnodup

theorem readsTo_tables (tables : List (Text × List Assignment)) (done : List (Text × Entry))
    (header : List Text) (hnodup : ((done ++ tables.map tableEntry).map (·.1)).Nodup)
    (htables : ∀ t ∈ tables, (t.2.map Assignment.key).Nodup) :
    ReadsTo header (ofList done) (tables.flatMap tableLines)
      (ofList (done ++ tables.map tableEntry)) := by
  induction tables generalizing done header with
  | nil => simpa using readsTo_nil header (ofList done)
  | cons t tables ih =>
    have hsnoc : done ++ (t :: tables).map tableEntry =
        (done ++ [tableEntry t]) ++ tables.map tableEntry := by simp
    have hfresh : t.1 ∉ done.map (·.1) := fresh_of_nodup hnodup
    rw [hsnoc] at hnodup ⊢
    rw [List.flatMap_cons]
    apply readsTo_table hfresh (htables t List.mem_cons_self)
    exact ih _ _ hnodup fun t' ht' => htables t' (List.mem_cons_of_mem t ht')

end Runs

/-! ### Documents -/

/-- Assignments, first those of the document itself and then those of its tables, without a
second one of the same key. -/
structure Outline where
  plain : List Assignment
  tables : List (Text × List Assignment)
  nodup : ((plain.map Assignment.entry ++ tables.map tableEntry).map (·.1)).Nodup
  nodup_tables : ∀ t ∈ tables, (t.2.map Assignment.key).Nodup

namespace Outline

def text (d : Outline) : Text := d.plain.flatMap Assignment.line ++ d.tables.flatMap tableLines

def entries (d : Outline) : List (Text × Entry) :=
  d.plain.map Assignment.entry ++ d.tables.map tableEntry

def members (d : Outline) : Members := ofList d.entries

theorem dropMark_text (d : Outline) : dropMark d.text = d.text := by
  rcases d with ⟨plain, tables, -, -⟩
  rcases plain with _ | ⟨a, plain⟩
  · rcases tables with _ | ⟨t, tables⟩
    · rfl
    · rfl
  · obtain ⟨c, cs, hc, hstart⟩ := exists_key a.key
    have hmark : (c.toNat == 0xfeff) = false := by
      rw [Bool.eq_false_iff]
      intro heq
      exact hstart (Char.ofNat 0xfeff) (by simp [keyless]) (Text.eq_ofNat heq).symm
    simp [text, Assignment.line, hc, dropMark, hmark]

theorem parse?_text (d : Outline) : parse? d.text = some (.obj (membersToJson d.members)) := by
  have hread : ReadsTo [] (ofList []) d.text d.members := by
    have hplain : ((d.plain.map Assignment.entry).map (·.1)).Nodup := by
      apply List.Nodup.of_append_left
      simpa using d.nodup
    refine @readsTo_lines [] _ _ id ?_ d.plain [] hplain ?_
    · intro f inner
      simp [within]
    · exact readsTo_tables d.tables _ [] d.nodup d.nodup_tables
  have hlines : lines? (d.text.length + 1) [] [] d.text = some d.members :=
    hread _ (Nat.lt_succ_self _)
  rw [parse?, dropMark_text, hlines, Option.map_some]

end Outline

end ShaderInline.Toml
