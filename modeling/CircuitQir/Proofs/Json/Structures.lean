import CircuitQir.Json.Decoding
import CircuitQir.Proofs.Checked
import CircuitQir.Proofs.Lists
/-!
# Decoding lists, names and structures

What the decoders for compound values make of a tree whose parts they accept, or one of whose parts
they refuse. A structure that was written as an object has its fields in order, some of them left
out (`Shape.given`). If every field accepts what it was given, each is found to have just that.
-/

namespace CircuitQir.Json

variable {α : Type}

/-! ## Lists and names -/

namespace Decoder

theorem list_ok {β : Type} {d : Decoder α} {f : β → Tree} {g : β → α} {xs : List β}
    (h : ∀ x ∈ xs, d (f x) = .ok (g x)) : list d (.array (xs.map f) true) = .ok (xs.map g) := by
  have hitems : (xs.map f).mapM d = .ok (xs.map g) := by
    rw [List.mapM_map]
    exact mapM_ok (f := d ∘ f) h
  exact bind_of_ok hitems _

theorem list_error {d : Decoder α} {ts : List Tree} {closed : Bool} {t : Tree} (ht : t ∈ ts)
    (h : ∃ e, d t = .error e) : ∃ e, list d (.array ts closed) = .error e := by
  obtain ⟨e, he⟩ := mapM_error h ht
  exact ⟨e, bind_of_error he _⟩

/-- A value with a name of its own is found under it. -/
theorem named_name {all : List α} {name : α → String} (hnodup : (all.map name).Nodup) {x : α}
    (hx : x ∈ all) : named all name (.string (some (name x))) = .ok x := by
  have hname : (all.map name).contains (name x) = true := by simpa using ⟨x, hx, rfl⟩
  simp only [named, variant, hname, if_true, find?_name hnodup hx]
  rfl

/-- A variant with a value is found by its name. -/
theorem variant_value {names : List String} {d : String → Option Tree → Except Problem α}
    {name : String} {t : Tree} {x : α} (hname : names.contains name = true)
    (h : d name (some t) = .ok x) : variant names d (.object [(some name, t)] true) = .ok x := by
  simp only [variant, hname, if_true, h]
  rfl

end Decoder

/-! ## Structures -/

namespace Field

/-- The field may have the given value, or none if none is given. -/
def Accepts (f : Field) : Option Tree → Prop
  | some t => f.check t = .ok ()
  | none => f.required = false

variable {d : Decoder α} {t : Tree}

theorem accepts_mandatory {x : α} (name : String) (h : d t = .ok x) :
    (mandatory name d).Accepts (some t) := by
  show (d t).map _ = _
  rw [h]
  rfl

theorem accepts_optional {x : α} (name : String) (h : d t = .ok x) :
    (optional name d).Accepts (some t) :=
  accepts_mandatory name h

theorem accepts_left_out {v : Option Tree} {x : α} (name : String) (h : ∀ t ∈ v, d t = .ok x) :
    (optional name d).Accepts v := by
  cases v with
  | none => rfl
  | some t => exact accepts_optional name (h t rfl)

theorem check_error (name : String) (h : ∃ e, d t = .error e) :
    ∃ e, (optional name d).check t = .error e := by
  obtain ⟨e, he⟩ := h
  refine ⟨e, ?_⟩
  show (d t).map _ = _
  rw [he]
  rfl

end Field

namespace Shape

/-- The members that stand for fields with the given values. -/
def given (fields : List (Field × Option Tree)) : Members :=
  fields.filterMap fun f => f.2.map fun t => (f.1.name, t)

/-- The object with these members. -/
def written (fields : List (Field × Option Tree)) : Tree :=
  .object ((given fields).map fun m => (some m.1, m.2)) true

/-- The fields of a structure, no two of one name, with values that they accept. -/
structure Filled (s : Shape) (fields : List (Field × Option Tree)) : Prop where
  fields_eq : s.fields = fields.map (·.1)
  nodup : (s.fields.map (·.name)).Nodup
  accepts : ∀ e ∈ fields, e.1.Accepts e.2

variable {s : Shape} {fields : List (Field × Option Tree)} {f : Field} {v : Option Tree}

theorem Filled.nodup_names (h : s.Filled fields) : (fields.map (·.1.name)).Nodup := by
  have hnodup := h.nodup
  rw [h.fields_eq, List.map_map] at hnodup
  exact hnodup

theorem given_cons_some (f : Field) (t : Tree) (fields : List (Field × Option Tree)) :
    given ((f, some t) :: fields) = (f.name, t) :: given fields := rfl

theorem given_cons_none (f : Field) (fields : List (Field × Option Tree)) :
    given ((f, none) :: fields) = given fields := rfl

theorem lookup_given_none {k : String} (h : k ∉ fields.map (·.1.name)) :
    (given fields).lookup k = none := by
  refine List.lookup_eq_none_iff.mpr fun m hm => ?_
  obtain ⟨e, he, hem⟩ := List.mem_filterMap.mp hm
  obtain ⟨t, -, rfl⟩ := Option.map_eq_some_iff.mp hem
  refine bne_iff_ne.mpr fun heq => h ?_
  exact List.mem_map.mpr ⟨e, he, heq.symm⟩

/-- Each field has the value that it was given. -/
theorem lookup_given : ∀ {fields : List (Field × Option Tree)},
    (fields.map (·.1.name)).Nodup → (f, v) ∈ fields → (given fields).lookup f.name = v
  | (g, w) :: fields, hnodup, hmem => by
    obtain ⟨hg, hothers⟩ := List.nodup_cons.mp hnodup
    rcases List.mem_cons.mp hmem with heq | hlater
    · obtain ⟨rfl, rfl⟩ := Prod.mk.inj heq
      cases v with
      | none =>
        rw [given_cons_none]
        exact lookup_given_none hg
      | some t => exact List.lookup_cons_self
    · have hrest := lookup_given hothers hlater
      cases w with
      | none => exact hrest
      | some t =>
        have hne : (f.name == g.name) = false := by
          refine beq_eq_false_iff_ne.mpr fun heq => hg ?_
          exact List.mem_map.mpr ⟨(f, v), hlater, heq⟩
        rw [given_cons_some, List.lookup_cons, hne]
        exact hrest

theorem mem_given {t : Tree} (hmem : (f, some t) ∈ fields) : (f.name, t) ∈ given fields :=
  List.mem_filterMap.mpr ⟨(f, some t), hmem, rfl⟩

theorem objectMembers_given : ∀ {fields : List (Field × Option Tree)} {met : Members},
    (∀ e ∈ fields, s.fields.find? (·.name = e.1.name) = some e.1 ∧ e.1.Accepts e.2) →
    (met.map (·.1) ++ fields.map (·.1.name)).Nodup →
    s.objectMembers met ((given fields).map fun m => (some m.1, m.2)) = .ok (met ++ given fields)
  | [], met, _, _ => by
    rw [given, List.filterMap_nil, List.append_nil]
    rfl
  | (g, w) :: fields, met, hknown, hnodup => by
    obtain ⟨⟨hfind, haccepts⟩, hothers⟩ := List.forall_mem_cons.mp hknown
    have hlater : (met.map (·.1) ++ fields.map (·.1.name)).Nodup :=
      hnodup.sublist ((List.sublist_cons_self _ _).append_left _)
    cases w with
    | none =>
      rw [given_cons_none]
      exact objectMembers_given hothers hlater
    | some t =>
      have hnew : met.lookup g.name = none := by
        refine List.lookup_eq_none_iff.mpr fun m hm => bne_iff_ne.mpr fun heq => ?_
        refine (List.nodup_append.mp hnodup).2.2 m.1 (List.mem_map_of_mem hm) g.name ?_ heq.symm
        exact List.mem_cons_self
      have hnext : ((met ++ [(g.name, t)]).map (·.1) ++ fields.map (·.1.name)).Nodup := by
        rw [List.map_append, List.append_assoc]
        exact hnodup
      rw [given_cons_some, List.map_cons, objectMembers, hfind]
      dsimp only
      rw [hnew, if_neg (by simp)]
      have hrest := objectMembers_given hothers hnext
      rw [List.append_assoc] at hrest
      exact (bind_of_ok haccepts _).trans hrest

namespace Filled

variable (h : s.Filled fields) {d : Decoder α} {t : Tree}
include h

/-- An object with the values that are given for the fields has these members. -/
theorem members : s.members (written fields) = .ok (given fields) := by
  have hnodup := h.nodup_names
  have hknown : ∀ e ∈ fields,
      s.fields.find? (·.name = e.1.name) = some e.1 ∧ e.1.Accepts e.2 := by
    intro e he
    refine ⟨find?_name h.nodup ?_, h.accepts e he⟩
    rw [h.fields_eq]
    exact List.mem_map_of_mem he
  have hmembers : s.objectMembers [] ((given fields).map fun m => (some m.1, m.2)) =
      .ok (given fields) := objectMembers_given hknown hnodup
  refine (bind_of_ok hmembers _).trans ?_
  have hcomplete : s.fields.find? (fun f => f.required && ((given fields).lookup f.name).isNone) =
      none := by
    refine List.find?_eq_none.mpr fun f hf => ?_
    rw [h.fields_eq] at hf
    obtain ⟨⟨f, v⟩, he, rfl⟩ := List.mem_map.mp hf
    have haccept := h.accepts _ he
    rw [lookup_given hnodup he]
    cases v with
    | none =>
      have hoptional : f.required = false := haccept
      simp [hoptional]
    | some t => simp
  rw [if_neg (by decide), hcomplete]
  rfl

theorem get {name : String} (hmem : (.mandatory name d, some t) ∈ fields) :
    (given fields).get name d = d t := by
  have hlookup : (given fields).lookup name = some t := lookup_given h.nodup_names hmem
  rw [Members.get, hlookup]

theorem getD {name : String} (default : α) (hmem : (.optional name d, some t) ∈ fields) :
    (given fields).getD name d default = d t := by
  have hlookup : (given fields).lookup name = some t := lookup_given h.nodup_names hmem
  rw [Members.getD, hlookup]

/-- A field may also be left out where its value is the default. -/
theorem getD_left_out {name : String} {default x : α} (hmem : (.optional name d, v) ∈ fields)
    (hdefault : v = none → default = x) (hvalue : ∀ t ∈ v, d t = .ok x) :
    (given fields).getD name d default = .ok x := by
  have hlookup : (given fields).lookup name = v := lookup_given h.nodup_names hmem
  rw [Members.getD, hlookup]
  cases v with
  | none => exact congrArg Except.ok (hdefault rfl)
  | some t => exact hvalue t rfl

end Filled

theorem objectMembers_error {key : String} {t : Tree}
    (hf : s.fields.find? (·.name = key) = some f) (ht : ∃ e, f.check t = .error e) :
    ∀ {ms : List (Option String × Tree)} {met : Members}, (some key, t) ∈ ms →
      ∃ e, s.objectMembers met ms = .error e
  | (k, u) :: ms, met, hmem => by
    rcases List.mem_cons.mp hmem with heq | hmem
    · obtain ⟨rfl, rfl⟩ := Prod.mk.inj heq
      obtain ⟨e, he⟩ := ht
      rw [objectMembers, hf]
      dsimp only
      split
      · exact ⟨_, rfl⟩
      · exact ⟨e, bind_of_error he _⟩
    · have hrest (met : Members) : ∃ e, s.objectMembers met ms = .error e :=
        objectMembers_error hf ht hmem
      cases k with
      | none => exact ⟨_, rfl⟩
      | some k =>
        rw [objectMembers]
        split
        · split
          · exact ⟨_, rfl⟩
          · rename_i g _ _
            cases hcheck : g.check u with
            | error e => exact ⟨e, rfl⟩
            | ok _ => exact hrest _
        · split
          · exact hrest met
          · exact ⟨_, rfl⟩

/-- An object with a value that its field refuses is refused. -/
theorem members_error (hs : s.fields = fields.map (·.1)) (hnodup : (s.fields.map (·.name)).Nodup)
    {t : Tree} (hmem : (f, some t) ∈ fields) (ht : ∃ e, f.check t = .error e) :
    ∃ e, s.members (written fields) = .error e := by
  have hf : s.fields.find? (·.name = f.name) = some f := by
    refine find?_name hnodup ?_
    rw [hs]
    exact List.mem_map_of_mem (f := fun e => e.1) hmem
  have hgiven : (some f.name, t) ∈ (given fields).map fun m => (some m.1, m.2) :=
    List.mem_map_of_mem (f := fun m => (some m.1, m.2)) (mem_given hmem)
  obtain ⟨e, he⟩ : ∃ e, s.objectMembers [] ((given fields).map fun m => (some m.1, m.2)) =
      .error e := objectMembers_error hf ht hgiven
  exact ⟨e, bind_of_error he _⟩

end Shape

end CircuitQir.Json
