import Diode.Core.Bytes
import Diode.Core.SMap
import Diode.Core.Words
import Mathlib.Data.List.Infix
import Mathlib.Logic.Relation

/-!
# The type of a signed message

A message is signed with the hash of its type, which names the struct type of
the message and after it every struct type that it leads to, in the order of
the names.

`encode_type` looks at the members of the primary type only, and sorts what it
has written instead of the names.

* `encode_type_iff`: it encodes a type as it should exactly when every type the
  primary type leads to is the type of one of its members, and no name of these
  continues another with a byte below the bracket.
-/
namespace Diode.L1.EIP712
open Diode.Core

/-- Names and types of the members of a struct type. -/
abbrev Fields := List (Bytes × Bytes)

/-- The struct types of a message. Names are without brackets. -/
structure Table where
  types : SMap Bytes Fields
  plain : ∀ e ∈ types.entries, (40 ∉ e.1 ∧ 41 ∉ e.1) ∧ ∀ f ∈ e.2, 41 ∉ f.1 ∧ 41 ∉ f.2

/-- `"#{type} #{name}"`, joined with `,` between `(` and `)`.
mirrors lib/eip712.ex:37-45 -/
def encode_single_type (type : Bytes) (fields : Fields) : Bytes :=
  type ++ 40 :: (List.intercalate [44] (fields.map fun f => f.2 ++ 32 :: f.1) ++ [41])

/-- The entries of the table that are types of members of the primary type.
mirrors lib/eip712.ex:19-30 -/
def references (primary_type : Bytes) (fields : Fields) (type_data : SMap Bytes Fields) :
    List (Bytes × Fields) :=
  let types := (fields.map Prod.snd).eraseDups
  type_data.entries.filter fun e => e.1 ≠ primary_type ∧ e.1 ∈ types

/-- mirrors lib/eip712.ex:16-35 -/
def encode_type (primary_type : Bytes) (type_data : SMap Bytes Fields) : Option Bytes := do
  let fields ← type_data.get primary_type
  let rest := (references primary_type fields type_data).map fun e => encode_single_type e.1 e.2
  some (encode_single_type primary_type fields ++ (rest.mergeSort fun a b => decide (a ≤ b)).flatten)

/-! ## What is to be encoded -/

/-- The type of the elements, for the type of an array. -/
def element (type : Bytes) : Bytes := type.takeWhile (· ≠ 91)

/-- A struct type has a member that is of another struct type, or an array of it. -/
def Refers (type_data : SMap Bytes Fields) (a b : Bytes) : Prop :=
  ∃ fields, type_data.get a = some fields ∧ (∃ f ∈ fields, b = f.2 ∨ b = element f.2) ∧
    (type_data.get b).isSome = true

/-- A struct type leads to another through any number of references. -/
def Reachable (type_data : SMap Bytes Fields) : Bytes → Bytes → Prop := Relation.ReflTransGen
    (Refers type_data)

/-- The primary type, and behind it the other types it leads to, each once and
in the order of their names. -/
def Encoding (type_data : SMap Bytes Fields) (primary_type bin : Bytes) : Prop :=
  ∃ fields l, type_data.get primary_type = some fields ∧ Assoc.Sorted l ∧
    (∀ name fs, (name, fs) ∈ l ↔ type_data.get name = some fs ∧ name ≠ primary_type ∧
      Reachable type_data primary_type name) ∧
    bin = encode_single_type primary_type fields ++ (l.map fun e => encode_single_type e.1 e.2).flatten

/-- `encode_type` encodes the type as it should. -/
def Right (type_data : SMap Bytes Fields) (primary_type : Bytes) : Prop :=
  ∃ bin, encode_type primary_type type_data = some bin ∧ Encoding type_data primary_type bin

variable {t : Table} {primary_type a b : Bytes} {fields fs : Fields}

theorem Table.name_plain (h : t.types.get a = some fs) : 40 ∉ a ∧ 41 ∉ a :=
    (t.plain _ ((SMap.mem_iff _ _ _).2 h)).1

theorem Table.fields_plain (h : t.types.get a = some fs) : ∀ f ∈ fs, 41 ∉ f.1 ∧ 41 ∉ f.2 :=
    (t.plain _ ((SMap.mem_iff _ _ _).2 h)).2

/-! ## Single types -/

theorem mem_intercalate {x : UInt8} {s : Bytes} : ∀ {l : List Bytes}, x ∈ List.intercalate s l →
    x ∈ s ∨ ∃ w ∈ l, x ∈ w
  | [], h => absurd h List.not_mem_nil
  | [w], h => by
    rw [List.intercalate_singleton] at h
    exact .inr ⟨w, List.mem_cons_self, h⟩
  | w :: w' :: l, h => by
    rw [List.intercalate_cons_cons, List.append_assoc, List.mem_append, List.mem_append] at h
    rcases h with h | h | h
    · exact .inr ⟨w, List.mem_cons_self, h⟩
    · exact .inl h
    · refine (mem_intercalate h).imp_right fun ⟨v, hv, hx⟩ => ?_
      exact ⟨v, List.mem_cons_of_mem _ hv, hx⟩

theorem encode_single_type_closed (h : t.types.get a = some fs) :
    Words.Closed 41 (encode_single_type a fs) := by
  refine ⟨a ++ 40 :: List.intercalate [44] (fs.map fun f => f.2 ++ 32 :: f.1), ?_, fun hm => ?_⟩
  · rw [encode_single_type, List.append_assoc, List.cons_append]
  · rcases List.mem_append.1 hm with hm | hm
    · exact (t.name_plain h).2 hm
    · rcases List.mem_cons.1 hm with hm | hm
      · exact absurd hm (by decide)
      · rcases mem_intercalate hm with hm | ⟨w, hw, hm⟩
        · exact absurd hm (by decide)
        · obtain ⟨f, hf, rfl⟩ := List.mem_map.1 hw
          have hplain := t.fields_plain h f hf
          rcases List.mem_append.1 hm with hm | hm
          · exact hplain.2 hm
          · rcases List.mem_cons.1 hm with hm | hm
            · exact absurd hm (by decide)
            · exact hplain.1 hm

/-- A single type begins with its name. -/
theorem encode_single_type_inj (ha : t.types.get a = some fields) (hb : t.types.get b = some fs)
    (h : encode_single_type a fields = encode_single_type b fs) : a = b :=
  (Words.append_mark_inj (t.name_plain ha).1 (t.name_plain hb).1 h).1

/-- Single types are in the order of their names, unless one name continues the other. -/
theorem encode_single_type_lt_iff (hlt : a < b) (hb : t.types.get b = some fs) (fields : Fields) :
    encode_single_type b fs < encode_single_type a fields ↔ Words.Continues 40 a b :=
  Words.mark_lt_iff _ _ hlt (t.name_plain hb).1

/-! ## The references -/

theorem mem_references (td : SMap Bytes Fields) : (a, fs) ∈ references primary_type fields td ↔
    td.get a = some fs ∧ a ≠ primary_type ∧ a ∈ fields.map Prod.snd := by
  unfold references
  rw [List.mem_filter, SMap.mem_iff, decide_eq_true_eq, List.mem_eraseDups]

theorem references_sorted (td : SMap Bytes Fields) : Assoc.Sorted (references primary_type fields td) :=
  Assoc.sorted_filter td.sorted _

/-- The types of the members are among those the type leads to. -/
theorem reachable_of_mem {td : SMap Bytes Fields} (h : td.get primary_type = some fields)
    (hm : a ∈ fields.map Prod.snd)
    (ha : td.get a = some fs) : Reachable td primary_type a := by
  obtain ⟨f, hf, rfl⟩ := List.mem_map.1 hm
  exact .single ⟨fields, h, ⟨f, hf, .inl rfl⟩, Option.isSome_iff_exists.2 ⟨fs, ha⟩⟩

theorem reachable_get {td : SMap Bytes Fields} (hr : Reachable td primary_type a)
    (hne : a ≠ primary_type) :
    ∃ fs, td.get a = some fs := by
  rcases Relation.ReflTransGen.cases_tail hr with rfl | ⟨_, _, _, _, _, hs⟩
  · exact absurd rfl hne
  · exact Option.isSome_iff_exists.1 hs

/-- The list that should follow is the one of the references, if these are all. -/
theorem sorted_eq_references {l : List (Bytes × Fields)}
    (h : t.types.get primary_type = some fields) (hl : Assoc.Sorted l)
    (hmem : ∀ name fs, (name, fs) ∈ l ↔ t.types.get name = some fs ∧ name ≠ primary_type ∧
      Reachable t.types primary_type name)
    (hall : ∀ name, Reachable t.types primary_type name → name = primary_type ∨
      name ∈ fields.map Prod.snd) :
    l = references primary_type fields t.types := by
  refine Assoc.ext hl (references_sorted _) fun k => Option.ext fun v => ?_
  rw [Assoc.get_iff_mem hl, Assoc.get_iff_mem (references_sorted _), hmem, mem_references]
  refine and_congr_right fun hk => and_congr_right fun hne => ?_
  exact ⟨fun hr => (hall k hr).resolve_left hne, fun hm => reachable_of_mem h hm hk⟩

/-- The sorted encodings are in the order of the names exactly if no name continues another. -/
theorem sorted_iff : ((references primary_type fields t.types).map fun e =>
    encode_single_type e.1 e.2).Pairwise (· ≤ ·) ↔
    ∀ p ∈ references primary_type fields t.types, ∀ q ∈ references primary_type fields t.types,
      ¬Words.Continues 40 p.1 q.1 := by
  have hget : ∀ p ∈ references primary_type fields t.types, t.types.get p.1 = some p.2 :=
    fun p hp => ((mem_references _).1 hp).1
  have hle : ∀ p ∈ references primary_type fields t.types, ∀ q ∈ references primary_type fields
    t.types, p.1 < q.1 →
      (encode_single_type p.1 p.2 ≤ encode_single_type q.1 q.2 ↔ ¬Words.Continues 40 p.1 q.1) := by
    intro p _ q hq hlt
    rw [← not_lt, encode_single_type_lt_iff hlt (hget q hq)]
  rw [List.pairwise_map]
  refine ⟨?_, ?_⟩
  · intro hs p hp q hq hc
    have hlt := hc.lt
    let R := fun p q : Bytes × Fields => p.1 < q.1 →
      encode_single_type p.1 p.2 ≤ encode_single_type q.1 q.2
    have hR : (references primary_type fields t.types).Pairwise R := by
      refine hs.imp ?_
      intro p q h _
      exact h
    have hflip : (references primary_type fields t.types).Pairwise (flip R) := by
      refine (references_sorted t.types).imp ?_
      intro p q h hlt
      exact absurd hlt h.asymm
    have hall := List.Pairwise.forall_of_forall_of_flip
      (fun x _ hlt => absurd hlt (lt_irrefl _)) hR hflip
    exact (hle p hp q hq hlt).1 (hall hp hq hlt) hc
  · intro hn
    exact (references_sorted t.types).imp_of_mem fun hp hq hlt => (hle _ hp _ hq hlt).2 (hn _ hp _ hq)

theorem encode_type_eq (h : t.types.get primary_type = some fields) : encode_type primary_type t.types =
    some (encode_single_type primary_type fields ++
      (((references primary_type fields t.types).map fun e => encode_single_type e.1 e.2).mergeSort fun a b => decide (a ≤ b)).flatten) := by
  unfold encode_type
  rw [h]
  rfl

/-- What a right encoding sorts is in the order that it should have. -/
theorem Right.sorted (h : t.types.get primary_type = some fields) (hr : Right t.types primary_type) :
    ∃ l, Assoc.Sorted l ∧
      (∀ name fs, (name, fs) ∈ l ↔ t.types.get name = some fs ∧ name ≠ primary_type ∧
        Reachable t.types primary_type name) ∧
      ((references primary_type fields t.types).map fun e => encode_single_type e.1 e.2).mergeSort
        (fun a b => decide (a ≤ b)) =
        l.map fun e => encode_single_type e.1 e.2 := by
  obtain ⟨bin, hbin, fields', l, h', hl, hmem, hb⟩ := hr
  cases h.symm.trans h'
  rw [encode_type_eq h, Option.some_inj] at hbin
  rw [← hbin, List.append_cancel_left_eq] at hb
  refine ⟨l, hl, hmem, Words.flatten_inj (t := 41) (fun w hw => ?_) (fun w hw => ?_) hb⟩
  · obtain ⟨e, he, rfl⟩ := List.mem_map.1 (List.mem_mergeSort.1 hw)
    exact encode_single_type_closed ((mem_references _).1 he).1
  · obtain ⟨e, he, rfl⟩ := List.mem_map.1 hw
    exact encode_single_type_closed ((hmem e.1 e.2).1 he).1

/-- A right encoding has no type that the members do not refer to. -/
theorem Right.direct (h : t.types.get primary_type = some fields) (hr : Right t.types primary_type)
    {name : Bytes}
    (hreach : Reachable t.types primary_type name) : name = primary_type ∨
      name ∈ fields.map Prod.snd := by
  by_cases hne : name = primary_type
  · exact .inl hne
  obtain ⟨l, hl, hmem, heq⟩ := hr.sorted h
  obtain ⟨fs, hfs⟩ := reachable_get hreach hne
  have hin : encode_single_type name fs ∈ l.map fun e => encode_single_type e.1 e.2 :=
    List.mem_map.2 ⟨(name, fs), (hmem name fs).2 ⟨hfs, hne, hreach⟩, rfl⟩
  rw [← heq, List.mem_mergeSort, List.mem_map] at hin
  obtain ⟨e, he, hee⟩ := hin
  obtain ⟨hget, _, hm⟩ := (mem_references _).1 he
  rw [encode_single_type_inj hget hfs hee] at hm
  exact .inr hm

/-- Nor one whose name continues another. -/
theorem Right.order (h : t.types.get primary_type = some fields) (hr : Right t.types primary_type) :
    ∀ p ∈ references primary_type fields t.types, ∀ q ∈ references primary_type fields t.types,
      ¬Words.Continues 40 p.1 q.1 := by
  obtain ⟨l, hl, hmem, heq⟩ := hr.sorted h
  rw [sorted_eq_references h hl hmem fun name => hr.direct h] at heq
  rw [← sorted_iff, ← heq]
  have hsorted := @List.pairwise_mergeSort _ (fun a b : Bytes => decide (a ≤ b))
    (fun a b c hab hbc => decide_eq_true ((of_decide_eq_true hab).trans (of_decide_eq_true hbc)))
    (fun a b => by simpa using le_total a b) ((references primary_type fields t.types).map fun e =>
      encode_single_type e.1 e.2)
  exact hsorted.imp fun h => of_decide_eq_true h

/-- **Type encoding.** A type of a table is encoded as it should exactly when
every type it leads to is the type of one of its members, and no name of these
continues another with a byte below the bracket. -/
theorem encode_type_iff (t : Table) (primary_type : Bytes) (fields : Fields)
    (h : t.types.get primary_type = some fields) :
    Right t.types primary_type ↔
      (∀ name, Reachable t.types primary_type name → name = primary_type ∨ name ∈ fields.map Prod.snd) ∧
        ∀ p ∈ references primary_type fields t.types, ∀ q ∈ references primary_type fields t.types,
          ¬Words.Continues 40 p.1 q.1 := by
  refine ⟨?_, ?_⟩
  · intro hr
    exact ⟨fun name => hr.direct h, hr.order h⟩
  · intro hx
    obtain ⟨hall, hn⟩ := hx
    refine ⟨_, encode_type_eq h, fields, references primary_type fields t.types, h,
      references_sorted _, fun name fs => ?_, ?_⟩
    · rw [mem_references]
      refine and_congr_right fun hk => and_congr_right fun hne => ?_
      exact ⟨fun hm => reachable_of_mem h hm hk, fun hr => (hall name hr).resolve_left hne⟩
    · rw [List.mergeSort_of_pairwise ((sorted_iff.2 hn).imp fun h => decide_eq_true h)]

/-- `A(B b)`, `B(C c)` and `C()` -/
def chain : Table := ⟨((SMap.empty.put [65] [([98], [66])]).put [66] [([99], [67])]).put
    [67] [], by decide⟩

/-- `M(A$ x,A y)`, `A()` and `A$()` -/
def dollar : Table := ⟨((SMap.empty.put [77] [([120], [65, 36]), ([121], [65])]).put [65] []).put
    [65, 36] [], by decide⟩

/-- The type `B` of the chain leads to `C` only. -/
theorem reachable_pair {name : Bytes} (hr : Reachable chain.types [66] name) : name = [66] ∨
    name = [67] := by
  induction hr with
  | refl => exact .inl rfl
  | tail _ hs ih =>
    obtain ⟨fields, hget, ⟨f, hf, hb⟩, _⟩ := hs
    rcases ih with rfl | rfl
    · obtain rfl : [([99], [67])] = fields := Option.some.inj hget
      rw [List.mem_singleton.1 hf] at hb
      exact .inr (hb.elim id id)
    · obtain rfl : [] = fields := Option.some.inj hget
      cases hf

theorem encode_type_pair : Right chain.types [66] := by
  refine (encode_type_iff chain [66] [([99], [67])] rfl).2 ⟨fun name hr => ?_, fun p hp q hq hc => ?_⟩
  · rcases reachable_pair hr with rfl | rfl
    · exact .inl rfl
    · exact .inr (by decide)
  · have hlist : references [66] [([99], [67])] chain.types = [([67], [])] := by decide
    rw [hlist, List.mem_singleton] at hp hq
    rw [hp, hq] at hc
    exact absurd hc.lt (lt_irrefl _)

/-- **Types left out, or out of order.** `A` leads to `C` through `B`, and `C` is
not listed. `A$()` is sorted before `A()`. -/
theorem chain_not_right : ¬Right chain.types [65] ∧ ¬Right dollar.types [77] := by
  refine ⟨?_, ?_⟩
  · intro hr
    have hreach : Reachable chain.types [65] [67] :=
      .tail (.single ⟨[([98], [66])], rfl, ⟨([98], [66]), by decide, .inl rfl⟩, rfl⟩)
        ⟨[([99], [67])], rfl, ⟨([99], [67]), by decide, .inl rfl⟩, rfl⟩
    have := @Right.direct chain [65] [([98], [66])] rfl hr _ hreach
    revert this
    decide
  · intro hr
    exact @Right.order dollar [77] [([120], [65, 36]), ([121], [65])] rfl hr ([65], []) (by decide)
      ([65, 36], []) (by decide)
      ⟨36, [], rfl, by decide⟩

end Diode.L1.EIP712
