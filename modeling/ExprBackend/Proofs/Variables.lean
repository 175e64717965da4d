import ExprBackend.Expr.Variables
import ExprBackend.Proofs.Results
import ExprBackend.Proofs.Scoping

/-!
# The numbers of variables

The table of a function whose names are bound once is exactly the list of its bindings: reading a
name adds nothing, since the name is already there, and every binding adds its name.
-/

namespace ExprBackend

namespace Variables

theorem lookup_zipIdx (names : List String) (name : String) (k : Nat) :
    (names.zipIdx k).lookup name = (names.findIdx? fun n => decide (n = name)).map (· + k) := by
  induction names generalizing k with
  | nil => rfl
  | cons n names ih =>
    rw [List.zipIdx_cons, List.lookup_cons, List.findIdx?_cons, ih]
    by_cases h : n = name
    · simp [h]
    · have hne : (name == n) = false := by simpa using Ne.symm h
      simp [h, hne, Option.map_map, Function.comp_def, Nat.add_assoc, Nat.add_comm 1 k]

def ofTyping (entries : Typing) : Variables where
  names := (entries.map Prod.fst).toArray
  types := (entries.map Prod.snd).toArray
  ids := (entries.map Prod.fst).zipIdx
  types_size := by simp
  lookup_ids name := by
    rw [lookup_zipIdx, List.findIdx?_toArray]
    exact Option.map_id'

variable {entries : Typing} {name : String} {ty : Ty} {v : Nat}

@[simp] theorem size_ofTyping (entries : Typing) : (ofTyping entries).size = entries.length := by
  rw [size, ofTyping, List.size_toArray, List.length_map]

theorem push_ofTyping (entries : Typing) (name : String) (ty : Ty) :
    (ofTyping entries).push name ty = ofTyping (entries ++ [(name, ty)]) := by
  simp [push, ofTyping, size, List.zipIdx_append]

theorem find?_ofTyping (entries : Typing) (name : String) :
    (ofTyping entries).find? name = entries.findIdx? fun e => decide (e.1 = name) := by
  rw [find?, lookup_ids, ofTyping, List.findIdx?_toArray, List.findIdx?_map]
  rfl

theorem find?_eq_none_iff : (ofTyping entries).find? name = none ↔ name ∉ entries.map Prod.fst := by
  rw [find?_ofTyping, List.findIdx?_eq_none_iff]
  simp only [decide_eq_false_iff_not, List.mem_map, not_exists, not_and]

/-- The number of a name is its place among the entries. -/
theorem find?_eq_some_iff (hnodup : (entries.map Prod.fst).Nodup) :
    (ofTyping entries).find? name = some v ↔ ∃ ty, entries[v]? = some (name, ty) := by
  rw [find?_ofTyping, List.findIdx?_eq_some_iff_getElem]
  constructor
  · rintro ⟨hv, hname, _⟩
    refine ⟨(entries[v]).2, ?_⟩
    rw [List.getElem?_eq_getElem hv, ← of_decide_eq_true hname]
  · rintro ⟨ty, hentry⟩
    obtain ⟨hv, heq⟩ := List.getElem?_eq_some_iff.1 hentry
    refine ⟨hv, by simp [heq], fun j hj h => ?_⟩
    have hentry' : (entries.map Prod.fst)[j]? = (entries.map Prod.fst)[v]? := by
      rw [List.getElem?_map, List.getElem?_map, hentry, List.getElem?_eq_getElem (by omega)]
      exact congrArg some (of_decide_eq_true h)
    have heq := (List.getElem?_inj (by rw [List.length_map]; omega) hnodup).1 hentry'
    omega

theorem name_of_getElem? (h : entries[v]? = some (name, ty)) : (ofTyping entries).name v = name := by
  simp [Variables.name, ofTyping, h]

theorem ty_of_getElem? (h : entries[v]? = some (name, ty)) : (ofTyping entries).ty v = ty := by
  simp [Variables.ty, ofTyping, h]

theorem name_of_find? (hnodup : (entries.map Prod.fst).Nodup)
    (h : (ofTyping entries).find? name = some v) : (ofTyping entries).name v = name := by
  obtain ⟨ty, hentry⟩ := (find?_eq_some_iff hnodup).1 h
  exact name_of_getElem? hentry

theorem find?_of_mem (hnodup : (entries.map Prod.fst).Nodup) (h : (name, ty) ∈ entries) :
    ∃ v, (ofTyping entries).find? name = some v ∧ (ofTyping entries).ty v = ty := by
  obtain ⟨v, hv⟩ := List.mem_iff_getElem?.1 h
  exact ⟨v, (find?_eq_some_iff hnodup).2 ⟨ty, hv⟩, ty_of_getElem? hv⟩

theorem add_known (hnodup : (entries.map Prod.fst).Nodup) (h : (name, ty) ∈ entries) :
    ∃ v, add name ty (ofTyping entries) = .ok v (ofTyping entries) := by
  obtain ⟨v, hfind, hty⟩ := find?_of_mem hnodup h
  refine ⟨v, ?_⟩
  rw [add, EStateM.get_bind, hfind]
  simp only [hty, if_true]
  rfl

theorem add_of_not_mem (h : name ∉ entries.map Prod.fst) (ty : Ty) :
    add name ty (ofTyping entries) = .ok entries.length (ofTyping (entries ++ [(name, ty)])) := by
  rw [add, EStateM.get_bind, find?_eq_none_iff.2 h, ← push_ofTyping, ← size_ofTyping]
  rfl

def Covers (entries scope : Typing) : Prop :=
  ∀ name ty, List.lookup name scope = some ty → (name, ty) ∈ entries

theorem addAtom_ok (hnodup : (entries.map Prod.fst).Nodup) {scope : Typing}
    (hscope : Covers entries scope) {x : Atom} (h : x.inScope scope = true) :
    addAtom x (ofTyping entries) = .ok () (ofTyping entries) := by
  unfold addAtom
  split
  next hvar =>
    obtain ⟨v, hadd⟩ := add_known hnodup (hscope _ _ (Atom.lookup_of_inScope h hvar))
    exact EStateM.bind_of_ok hadd
  next => rfl

theorem Covers.declares {scope : Typing} {x : Expr} (h : Covers entries scope) :
    Covers (entries ++ x.bindings) (x.declares ++ scope) := by
  intro name ty hlookup
  cases x with
  | bind name' init =>
    rw [Expr.declares, List.cons_append, List.nil_append, List.lookup_cons] at hlookup
    split at hlookup
    next heq =>
      cases hlookup
      simp [Expr.bindings, eq_of_beq heq]
    next => exact List.mem_append_left _ (h name ty hlookup)
  | _ => exact List.mem_append_left _ (h name ty hlookup)

theorem Covers.append {scope : Typing} (h : Covers entries scope) (more : Typing) :
    Covers (entries ++ more) scope :=
  fun name ty hlookup => List.mem_append_left _ (h name ty hlookup)

theorem nodup_left {more : Typing} (h : ((entries ++ more).map Prod.fst).Nodup) :
    (entries.map Prod.fst).Nodup := by
  rw [List.map_append] at h
  exact h.of_append_left

mutual

theorem addExpr_ok : ∀ (x : Expr) (scope entries : Typing), x.inScope scope = true →
    Covers entries scope → ((entries ++ x.bindings).map Prod.fst).Nodup →
    addExpr x (ofTyping entries) = .ok () (ofTyping (entries ++ x.bindings))
  | .atom x, scope, entries, hx, hscope, hnodup => by
    rw [Expr.inScope] at hx
    simp only [Expr.bindings, List.append_nil] at hnodup ⊢
    rw [addExpr]
    exact addAtom_ok hnodup hscope hx
  | .bind name init, scope, entries, hx, hscope, hnodup => by
    rw [Expr.inScope, Bool.and_eq_true] at hx
    rw [Expr.bindings, ← List.append_assoc] at hnodup ⊢
    have hinit := addExpr_ok init scope entries hx.2 hscope (nodup_left hnodup)
    obtain ⟨ty, hty⟩ := Option.isSome_iff_exists.1 (init.ty?_isSome_of_inScope scope hx.2)
    have hnew : name ∉ (entries ++ init.bindings).map Prod.fst := by
      rw [List.map_append] at hnodup
      have hdisjoint := List.disjoint_of_nodup_append hnodup
      exact fun hmem => hdisjoint hmem (by simp)
    have hadd := add_of_not_mem hnew ty
    rw [addExpr, EStateM.bind_of_ok hinit, hty, Expr.tyOf, hty]
    exact EStateM.bind_of_ok hadd
  | .unary op x ty, scope, entries, hx, hscope, hnodup => by
    rw [Expr.inScope] at hx
    simp only [Expr.bindings, List.append_nil] at hnodup ⊢
    rw [addExpr]
    exact addAtom_ok hnodup hscope hx
  | .binary op l r ty, scope, entries, hx, hscope, hnodup => by
    simp only [Expr.inScope, Bool.and_eq_true] at hx
    simp only [Expr.bindings, List.append_nil] at hnodup ⊢
    rw [addExpr, EStateM.bind_of_ok (addAtom_ok hnodup hscope hx.1)]
    exact addAtom_ok hnodup hscope hx.2
  | .branch cond onTrue none, scope, entries, hx, hscope, hnodup => by
    simp only [Expr.inScope, Bool.and_eq_true] at hx
    simp only [Expr.bindings] at hnodup ⊢
    have hfirst := addBlock_ok onTrue scope entries hx.2 hscope hnodup
    rw [addExpr, EStateM.bind_of_ok (addAtom_ok (nodup_left hnodup) hscope hx.1)]
    exact EStateM.bind_of_ok hfirst
  | .branch cond onTrue (some b), scope, entries, hx, hscope, hnodup => by
    simp only [Expr.inScope, Bool.and_eq_true] at hx
    simp only [Expr.bindings, ← List.append_assoc] at hnodup ⊢
    have hfirst := addBlock_ok onTrue scope entries hx.1.2 hscope (nodup_left hnodup)
    have hsecond := addBlock_ok b scope _ hx.2 (hscope.append _) hnodup
    rw [addExpr, EStateM.bind_of_ok (addAtom_ok (nodup_left (nodup_left hnodup)) hscope hx.1.1),
      EStateM.bind_of_ok hfirst]
    exact hsecond
  | .missing, scope, entries, hx, hscope, hnodup => by simp [Expr.inScope] at hx

theorem addBlock_ok : ∀ (xs : List Expr) (scope entries : Typing), blockInScope xs scope = true →
    Covers entries scope → ((entries ++ blockBindings xs).map Prod.fst).Nodup →
    addBlock xs (ofTyping entries) = .ok () (ofTyping (entries ++ blockBindings xs))
  | [], scope, entries, hxs, hscope, hnodup => by
    rw [addBlock, blockBindings, List.append_nil]
    rfl
  | x :: xs, scope, entries, hxs, hscope, hnodup => by
    rw [blockInScope, Bool.and_eq_true] at hxs
    rw [blockBindings, ← List.append_assoc] at hnodup ⊢
    rw [addBlock, EStateM.bind_of_ok (addExpr_ok x scope entries hxs.1 hscope (nodup_left hnodup))]
    exact addBlock_ok xs _ _ hxs.2 hscope.declares hnodup

end

theorem addParams_ok {ps : List Param}
    (hnodup : ((entries ++ ps.map fun p => (p.name, p.ty)).map Prod.fst).Nodup) :
    addParams ps (ofTyping entries) =
      .ok () (ofTyping (entries ++ ps.map fun p => (p.name, p.ty))) := by
  induction ps generalizing entries with
  | nil =>
    rw [addParams, List.map_nil, List.append_nil]
    rfl
  | cons p ps ih =>
    rw [List.map_cons, List.append_cons] at hnodup ⊢
    have hnew : p.name ∉ entries.map Prod.fst := by
      have hleft := nodup_left hnodup
      rw [List.map_append] at hleft
      exact fun hmem => List.disjoint_of_nodup_append hleft hmem (by simp)
    have hadd := add_of_not_mem hnew p.ty
    have hdiscard : discard (add p.name p.ty) (ofTyping entries) =
        .ok () (ofTyping (entries ++ [(p.name, p.ty)])) := EStateM.bind_of_ok hadd
    rw [addParams, EStateM.bind_of_ok hdiscard]
    exact ih hnodup

/-- The table of a function. -/
theorem ofFunc_ok {f : Func} (hf : f.Scoped) : ofFunc f = .ok (ofTyping f.bindings) := by
  have hnodup : (([] ++ f.paramTyping).map Prod.fst).Nodup :=
    nodup_left hf.nodup
  have hparams : addParams f.params empty = .ok () (ofTyping f.paramTyping) := addParams_ok hnodup
  have hcovers : Covers f.paramTyping f.paramTyping := fun name ty h => mem_of_lookup h
  have hbody := addBlock_ok f.body f.paramTyping f.paramTyping hf.inScope hcovers hf.nodup
  simp only [ofFunc, collect, EStateM.bind_of_ok hparams, hbody]
  rfl

end Variables

end ExprBackend
