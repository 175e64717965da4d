import ExprBackend.Proofs.Variables
import Mathlib.Data.List.Nodup

/-!
# Tables of names

A table of variables only ever grows, whatever is added to it and whether or not an addition fails
half way, so that a number keeps its name and its type. For a function without missing parts the
additions are those of the names that it mentions, one by one, and the table lists them in the order
in which they are first met.
-/

namespace ExprBackend

/-- A variable is mentioned with the type that it is read at. -/
def Atom.mentions (x : Atom) : Typing := if x.isVar then [(x.name, x.ty)] else []

mutual

/-- The names in an expression with their types, in the order in which they are met: what is bound
comes before the name that it is bound to. -/
def Expr.mentions : Expr → Typing
  | .atom x => x.mentions
  | .bind name init => init.mentions ++ [(name, init.tyOf)]
  | .unary _ x _ => x.mentions
  | .binary _ l r _ => l.mentions ++ r.mentions
  | .branch cond onTrue none => cond.mentions ++ blockMentions onTrue
  | .branch cond onTrue (some b) => cond.mentions ++ (blockMentions onTrue ++ blockMentions b)
  | .missing => []

def blockMentions : List Expr → Typing
  | [] => []
  | x :: xs => x.mentions ++ blockMentions xs

end

/-- The parameters are mentioned first. -/
def Func.mentions (f : Func) : Typing := f.paramTyping ++ blockMentions f.body

mutual

def Expr.isWhole : Expr → Bool
  | .bind _ init => init.isWhole
  | .branch _ onTrue none => blockIsWhole onTrue
  | .branch _ onTrue (some b) => blockIsWhole onTrue && blockIsWhole b
  | .missing => false
  | _ => true

def blockIsWhole : List Expr → Bool
  | [] => true
  | x :: xs => x.isWhole && blockIsWhole xs

end

mutual

theorem Expr.ty?_isSome_of_isWhole : ∀ x : Expr, x.isWhole = true → x.ty?.isSome = true
  | .atom x, h => rfl
  | .bind name init, h => by
    rw [Expr.isWhole] at h
    rw [Expr.ty?]
    exact init.ty?_isSome_of_isWhole h
  | .unary op x ty, h => rfl
  | .binary op l r ty, h => rfl
  | .branch cond onTrue none, h => by
    rw [Expr.isWhole] at h
    rw [Expr.ty?]
    exact blockTy?_isSome_of_isWhole onTrue h
  | .branch cond onTrue (some b), h => by
    rw [Expr.isWhole, Bool.and_eq_true] at h
    rw [Expr.ty?]
    exact blockTy?_isSome_of_isWhole onTrue h.1
  | .missing, h => by simp [Expr.isWhole] at h

theorem blockTy?_isSome_of_isWhole : ∀ xs : List Expr, blockIsWhole xs = true →
    (blockTy? xs).isSome = true
  | [], h => rfl
  | [x], h => by
    rw [blockIsWhole, Bool.and_eq_true] at h
    rw [blockTy?]
    exact x.ty?_isSome_of_isWhole h.1
  | x :: y :: xs, h => by
    rw [blockIsWhole, Bool.and_eq_true] at h
    rw [blockTy?]
    exact blockTy?_isSome_of_isWhole (y :: xs) h.2

end

namespace Variables

section Add

variable {entries : Typing} {name : String} {ty : Ty} {v : Nat}

theorem add_of_find? {vars : Variables} (h : vars.find? name = some v) (ty : Ty) :
    add name ty vars =
      if vars.ty v = ty then .ok v vars
      else .error (.violation (.boundTwice name (vars.ty v) ty)) vars := by
  rw [add, EStateM.get_bind, h]
  dsimp only
  split <;> rfl

/-- A name is in the table with its type, or not in the table, or in the table with another type. -/
theorem add_cases (hnodup : (entries.map Prod.fst).Nodup) (name : String) (ty : Ty) :
    (∃ v, entries[v]? = some (name, ty) ∧
      add name ty (ofTyping entries) = .ok v (ofTyping entries)) ∨
    (name ∉ entries.map Prod.fst ∧ add name ty (ofTyping entries) =
      .ok entries.length (ofTyping (entries ++ [(name, ty)]))) ∨
    ∃ other, (name, other) ∈ entries ∧ other ≠ ty ∧
      ∃ e, add name ty (ofTyping entries) = .error e (ofTyping entries) := by
  by_cases hmem : name ∈ entries.map Prod.fst
  · obtain ⟨⟨_, other⟩, hentry, rfl⟩ := List.mem_map.1 hmem
    obtain ⟨v, hfind, hty⟩ := find?_of_mem hnodup hentry
    have hadd := add_of_find? hfind ty
    rw [hty] at hadd
    by_cases heq : other = ty
    · subst heq
      obtain ⟨ty', hv⟩ := (find?_eq_some_iff hnodup).1 hfind
      rw [ty_of_getElem? hv] at hty
      exact Or.inl ⟨v, hty ▸ hv, by rw [hadd, if_pos rfl]⟩
    · exact Or.inr (Or.inr ⟨other, hentry, heq, _, by rw [hadd, if_neg heq]⟩)
  · exact Or.inr (Or.inl ⟨hmem, add_of_not_mem hmem ty⟩)

theorem nodup_concat (hnodup : (entries.map Prod.fst).Nodup) (h : name ∉ entries.map Prod.fst) :
    ((entries ++ [(name, ty)]).map Prod.fst).Nodup := by
  rw [List.map_append, List.map_singleton, ← List.concat_eq_append]
  exact hnodup.concat h

end Add

/-- The table that a computation leaves, whether it fails or not. -/
def left {α : Type} : EStateM.Result Failure Variables α → Variables
  | .ok _ vars => vars
  | .error _ vars => vars

/-- A computation adds new names behind those that are there. -/
def Grows {α : Type} (x : EStateM Failure Variables α) : Prop :=
  ∀ entries : Typing, (entries.map Prod.fst).Nodup →
    ∃ more, left (x (ofTyping entries)) = ofTyping (entries ++ more) ∧
      ((entries ++ more).map Prod.fst).Nodup

namespace Grows

variable {α β : Type}

theorem of_left_eq {x : EStateM Failure Variables α} (h : ∀ vars, left (x vars) = vars) :
    Grows x := by
  intro entries hnodup
  refine ⟨[], ?_, ?_⟩
  · rw [h, List.append_nil]
  · rwa [List.append_nil]

theorem pure (a : α) : Grows (pure a) := of_left_eq fun _ => rfl

theorem throw (e : Failure) : Grows (throw e : EStateM Failure Variables α) :=
  of_left_eq fun _ => rfl

theorem bind {x : EStateM Failure Variables α} {f : α → EStateM Failure Variables β}
    (hx : Grows x) (hf : ∀ a, Grows (f a)) : Grows (x >>= f) := by
  intro entries hnodup
  obtain ⟨more, hleft, hmore⟩ := hx entries hnodup
  cases hrun : x (ofTyping entries) with
  | ok a vars =>
    rw [hrun] at hleft
    obtain rfl : vars = _ := hleft
    obtain ⟨others, hleft', hothers⟩ := hf a (entries ++ more) hmore
    refine ⟨more ++ others, ?_, ?_⟩
    · rw [EStateM.bind_of_ok hrun, hleft', List.append_assoc]
    · rwa [← List.append_assoc]
  | error e vars =>
    rw [hrun] at hleft
    refine ⟨more, ?_, hmore⟩
    rw [EStateM.bind_of_error hrun]
    exact hleft

theorem add (name : String) (ty : Ty) : Grows (Variables.add name ty) := by
  intro entries hnodup
  rcases add_cases hnodup name ty with ⟨v, _, hadd⟩ | ⟨hnew, hadd⟩ | ⟨_, _, _, e, hadd⟩
  · exact ⟨[], by rw [hadd, List.append_nil]; rfl, by rwa [List.append_nil]⟩
  · exact ⟨[(name, ty)], by rw [hadd]; rfl, nodup_concat hnodup hnew⟩
  · exact ⟨[], by rw [hadd, List.append_nil]; rfl, by rwa [List.append_nil]⟩

theorem discard {x : EStateM Failure Variables α} (hx : Grows x) : Grows (discard x) :=
  hx.bind fun _ => pure _

theorem addAtom (x : Atom) : Grows (Variables.addAtom x) := by
  unfold Variables.addAtom
  split
  · exact (add x.name x.ty).discard
  · exact pure _

mutual

theorem addExpr : ∀ x : Expr, Grows (Variables.addExpr x)
  | .atom x => by
    rw [Variables.addExpr]
    exact addAtom x
  | .bind name init => by
    rw [Variables.addExpr]
    refine (addExpr init).bind fun _ => ?_
    cases init.ty? with
    | some ty => exact (add name ty).discard
    | none => exact throw _
  | .unary _ x _ => by
    rw [Variables.addExpr]
    exact addAtom x
  | .binary _ l r _ => by
    rw [Variables.addExpr]
    exact (addAtom l).bind fun _ => addAtom r
  | .branch cond onTrue none => by
    rw [Variables.addExpr]
    exact (addAtom cond).bind fun _ => (addBlock onTrue).bind fun _ => pure _
  | .branch cond onTrue (some b) => by
    rw [Variables.addExpr]
    exact (addAtom cond).bind fun _ => (addBlock onTrue).bind fun _ => addBlock b
  | .missing => by
    rw [Variables.addExpr]
    exact throw _

theorem addBlock : ∀ xs : List Expr, Grows (Variables.addBlock xs)
  | [] => by
    rw [Variables.addBlock]
    exact pure _
  | x :: xs => by
    rw [Variables.addBlock]
    exact (addExpr x).bind fun _ => addBlock xs

end

end Grows

inductive Call where
  | add (name : String) (ty : Ty)
  | addBlock (b : Block)

def Call.perform : Call → EStateM Failure Variables Unit
  | .add name ty => discard (Variables.add name ty)
  | .addBlock b => Variables.addBlock b

/-- The table after calls on an empty one. What a call added before it failed stays. -/
def after (cs : List Call) : Variables := cs.foldl (fun vars c => left (c.perform vars)) empty

theorem after_append (cs ds : List Call) :
    after (cs ++ ds) = ds.foldl (fun vars c => left (c.perform vars)) (after cs) :=
  List.foldl_append

theorem Grows.perform (c : Call) : Grows c.perform := by
  cases c with
  | add name ty => exact (Grows.add name ty).discard
  | addBlock b => exact Grows.addBlock b

theorem grows_run (cs : List Call) (entries : Typing) (hnodup : (entries.map Prod.fst).Nodup) :
    ∃ more, cs.foldl (fun vars c => left (c.perform vars)) (ofTyping entries) =
      ofTyping (entries ++ more) ∧ ((entries ++ more).map Prod.fst).Nodup := by
  induction cs generalizing entries with
  | nil => exact ⟨[], by rw [List.append_nil]; rfl, by rwa [List.append_nil]⟩
  | cons c cs ih =>
    obtain ⟨more, hleft, hmore⟩ := Grows.perform c entries hnodup
    obtain ⟨others, hrun, hothers⟩ := ih _ hmore
    refine ⟨more ++ others, ?_, ?_⟩
    · rw [List.foldl_cons, hleft, hrun, List.append_assoc]
    · rwa [← List.append_assoc]

theorem exists_after (cs : List Call) :
    ∃ entries, after cs = ofTyping entries ∧ (entries.map Prod.fst).Nodup :=
  grows_run cs [] List.nodup_nil

/-- Numbers and names belong to each other, and every number has a type. -/
structure Interned (vars : Variables) : Prop where
  types_size : vars.types.size = vars.size
  name_inj : ∀ i < vars.size, ∀ j < vars.size, vars.name i = vars.name j → i = j
  find?_name : ∀ i < vars.size, vars.find? (vars.name i) = some i
  find?_other : ∀ name, (∀ i < vars.size, vars.name i ≠ name) → vars.find? name = none

/-- A number has the same name and type in a later table. -/
structure Keeps (v : Nat) (vars later : Variables) : Prop where
  lt_size : v < later.size
  name_eq : later.name v = vars.name v
  ty_eq : later.ty v = vars.ty v

section Interned

variable {entries more : Typing} {v : Nat}

theorem getElem?_entry (h : v < entries.length) :
    entries[v]? = some ((ofTyping entries).name v, (ofTyping entries).ty v) := by
  simp [Variables.name, Variables.ty, ofTyping, h]

theorem interned_ofTyping (hnodup : (entries.map Prod.fst).Nodup) :
    (ofTyping entries).Interned := by
  have hfind : ∀ i < entries.length,
      (ofTyping entries).find? ((ofTyping entries).name i) = some i := fun i hi =>
    (find?_eq_some_iff hnodup).2 ⟨_, getElem?_entry hi⟩
  rw [← size_ofTyping entries] at hfind
  refine ⟨(ofTyping entries).types_size, fun i hi j hj hij => ?_, hfind, fun name hname => ?_⟩
  · have hboth := (hfind i hi).symm.trans (hij ▸ hfind j hj)
    exact Option.some.inj hboth
  · rw [find?_eq_none_iff, List.mem_map]
    rintro ⟨⟨_, ty⟩, hmem, rfl⟩
    obtain ⟨i, hi⟩ := List.mem_iff_getElem?.1 hmem
    have hlt : i < (ofTyping entries).size := by
      rw [size_ofTyping]
      exact (List.getElem?_eq_some_iff.1 hi).1
    exact hname i hlt (name_of_getElem? hi)

theorem interned_after (cs : List Call) : (after cs).Interned := by
  obtain ⟨entries, hafter, hnodup⟩ := exists_after cs
  rw [hafter]
  exact interned_ofTyping hnodup

theorem keeps_after_append {cs : List Call} (ds : List Call) (h : v < (after cs).size) :
    Keeps v (after cs) (after (cs ++ ds)) := by
  obtain ⟨entries, hafter, hnodup⟩ := exists_after cs
  obtain ⟨more, hrun, _⟩ := grows_run ds entries hnodup
  rw [after_append, hafter, hrun]
  rw [hafter, size_ofTyping] at h
  have hentry : (entries ++ more)[v]? = some ((ofTyping entries).name v, (ofTyping entries).ty v) :=
    (List.getElem?_append_left h).trans (getElem?_entry h)
  refine ⟨?_, name_of_getElem? hentry, ty_of_getElem? hentry⟩
  rw [size_ofTyping, List.length_append]
  omega

/-- The number that an addition gives is that of the name. -/
theorem after_concat_add {cs : List Call} {name : String} {ty : Ty} {vars : Variables}
    (h : add name ty (after cs) = .ok v vars) :
    let later := after (cs ++ [.add name ty])
    v < later.size ∧ later.name v = name ∧ later.ty v = ty := by
  obtain ⟨entries, hafter, hnodup⟩ := exists_after cs
  have hlater : after (cs ++ [.add name ty]) = vars := by
    have hdiscard : discard (add name ty) (after cs) = .ok () vars := EStateM.bind_of_ok h
    rw [after_append, List.foldl_cons, List.foldl_nil, Call.perform, hdiscard]
    rfl
  have hentry : ∃ all, vars = ofTyping all ∧ all[v]? = some (name, ty) := by
    rw [hafter] at h
    rcases add_cases hnodup name ty with ⟨w, hw, hadd⟩ | ⟨hnew, hadd⟩ | ⟨_, _, _, e, hadd⟩
    · cases hadd.symm.trans h
      exact ⟨entries, rfl, hw⟩
    · cases hadd.symm.trans h
      exact ⟨_, rfl, List.getElem?_concat_length⟩
    · cases hadd.symm.trans h
  obtain ⟨all, rfl, hv⟩ := hentry
  rw [hlater]
  refine ⟨?_, name_of_getElem? hv, ty_of_getElem? hv⟩
  rw [size_ofTyping]
  exact (List.getElem?_eq_some_iff.1 hv).1

end Interned

def addAll : Typing → EStateM Failure Variables Unit
  | [] => return ()
  | e :: es => do
    discard (add e.1 e.2)
    addAll es

theorem addAll_append (es fs : Typing) :
    addAll (es ++ fs) = (do addAll es; addAll fs) := by
  induction es with
  | nil => rw [List.nil_append, addAll, pure_bind]
  | cons e es ih => rw [List.cons_append, addAll, addAll, ih, bind_assoc]

theorem addAll_singleton (name : String) (ty : Ty) :
    addAll [(name, ty)] = discard (add name ty) := by
  rw [addAll, addAll]
  exact bind_pure (discard (add name ty))

theorem addParams_eq (ps : List Param) :
    addParams ps = addAll (ps.map fun p => (p.name, p.ty)) := by
  induction ps with
  | nil => rfl
  | cons p ps ih => rw [List.map_cons, addParams, addAll, ih]

theorem addAtom_eq (x : Atom) : addAtom x = addAll x.mentions := by
  rw [addAtom, Atom.mentions]
  split
  · rw [addAll_singleton]
  · rfl

mutual

/-- If nothing is missing, an expression adds the names that it mentions. -/
theorem addExpr_eq : ∀ x : Expr, x.isWhole = true → addExpr x = addAll x.mentions
  | .atom x, h => by rw [addExpr, Expr.mentions, addAtom_eq]
  | .bind name init, h => by
    rw [Expr.isWhole] at h
    obtain ⟨ty, hty⟩ := Option.isSome_iff_exists.1 (init.ty?_isSome_of_isWhole h)
    rw [addExpr, Expr.mentions, addAll_append, addAll_singleton, addExpr_eq init h, Expr.tyOf, hty]
    rfl
  | .unary op x ty, h => by rw [addExpr, Expr.mentions, addAtom_eq]
  | .binary op l r ty, h => by
    rw [addExpr, Expr.mentions, addAll_append, addAtom_eq, addAtom_eq]
  | .branch cond onTrue none, h => by
    rw [Expr.isWhole] at h
    rw [addExpr, Expr.mentions, addAll_append, addAtom_eq, addBlock_eq onTrue h]
    exact bind_congr fun _ => bind_pure (addAll (blockMentions onTrue))
  | .branch cond onTrue (some b), h => by
    rw [Expr.isWhole, Bool.and_eq_true] at h
    rw [addExpr, Expr.mentions, addAll_append, addAll_append, addAtom_eq, addBlock_eq onTrue h.1]
    simp only [addBlock_eq b h.2]
  | .missing, h => by simp [Expr.isWhole] at h

theorem addBlock_eq : ∀ xs : List Expr, blockIsWhole xs = true →
    addBlock xs = addAll (blockMentions xs)
  | [], h => by rw [addBlock, blockMentions, addAll]
  | x :: xs, h => by
    rw [blockIsWhole, Bool.and_eq_true] at h
    rw [addBlock, blockMentions, addAll_append, addExpr_eq x h.1, addBlock_eq xs h.2]

end

theorem ofFunc_eq_collect {f : Func} (h : blockIsWhole f.body = true) :
    ofFunc f = collect (addAll f.mentions) := by
  rw [ofFunc, addParams_eq, addBlock_eq f.body h, Func.mentions, Func.paramTyping, addAll_append]

def OneTyped (es : Typing) : Prop :=
  ∀ name ty ty', (name, ty) ∈ es → (name, ty') ∈ es → ty = ty'

/-- A table has the names that were met, in the order in which they were first met, each with the
type that it had everywhere. -/
structure Tabulates (met entries : Typing) : Prop where
  nodup : (entries.map Prod.fst).Nodup
  names : entries.map Prod.fst = (met.map Prod.fst).eraseDups
  mem_iff : ∀ e, e ∈ entries ↔ e ∈ met

namespace Tabulates

variable {met entries : Typing}

theorem nil : Tabulates [] [] := ⟨List.nodup_nil, rfl, fun _ => Iff.rfl⟩

theorem oneTyped (h : Tabulates met entries) : OneTyped met := by
  intro name ty ty' hty hty'
  obtain ⟨v, hv, hvty⟩ := find?_of_mem h.nodup ((h.mem_iff _).2 hty)
  obtain ⟨w, hw, hwty⟩ := find?_of_mem h.nodup ((h.mem_iff _).2 hty')
  obtain rfl : v = w := Option.some.inj (hv.symm.trans hw)
  exact hvty.symm.trans hwty

theorem size_eq (h : Tabulates met entries) :
    (ofTyping entries).size = (met.map Prod.fst).eraseDups.length := by
  rw [← h.names, List.length_map, size_ofTyping]

theorem find?_iff (h : Tabulates met entries) (name : String) (v : Nat) :
    (ofTyping entries).find? name = some v ↔ (met.map Prod.fst).eraseDups[v]? = some name := by
  rw [find?_eq_some_iff h.nodup, ← h.names, List.getElem?_map, Option.map_eq_some_iff]
  constructor
  · rintro ⟨ty, hv⟩
    exact ⟨_, hv, rfl⟩
  · rintro ⟨⟨_, ty⟩, hv, rfl⟩
    exact ⟨ty, hv⟩

theorem mem_names (h : Tabulates met entries) (name : String) :
    name ∈ entries.map Prod.fst ↔ name ∈ met.map Prod.fst := by
  rw [h.names, List.mem_eraseDups]

theorem known (h : Tabulates met entries) {e : String × Ty} (he : e ∈ entries) :
    Tabulates (met ++ [e]) entries := by
  have hname : e.1 ∈ met.map Prod.fst := (h.mem_names _).1 (List.mem_map_of_mem he)
  refine ⟨h.nodup, ?_, fun d => ?_⟩
  · rw [List.map_append, List.eraseDups_append, ← h.names]
    simp [List.removeAll, hname]
  · rw [List.mem_append, List.mem_singleton, ← h.mem_iff]
    constructor
    · exact Or.inl
    · rintro (hd | rfl)
      · exact hd
      · exact he

theorem new (h : Tabulates met entries) {e : String × Ty} (he : e.1 ∉ entries.map Prod.fst) :
    Tabulates (met ++ [e]) (entries ++ [e]) := by
  have hname : e.1 ∉ met.map Prod.fst := fun hmet => he ((h.mem_names _).2 hmet)
  refine ⟨nodup_concat h.nodup he, ?_, fun d => ?_⟩
  · rw [List.map_append, List.map_append, List.eraseDups_append, ← h.names]
    simp [List.removeAll, hname, List.eraseDups_cons]
  · rw [List.mem_append, List.mem_append, h.mem_iff]

/-- One more name is tabulated, or it was met with another type. -/
theorem add (h : Tabulates met entries) (e : String × Ty) :
    (∃ entries', Tabulates (met ++ [e]) entries' ∧
      ∃ v, Variables.add e.1 e.2 (ofTyping entries) = .ok v (ofTyping entries')) ∨
    ∃ other, (e.1, other) ∈ met ∧ other ≠ e.2 ∧
      ∃ err, Variables.add e.1 e.2 (ofTyping entries) = .error err (ofTyping entries) := by
  rcases add_cases h.nodup e.1 e.2 with ⟨v, hv, hadd⟩ | ⟨hnew, hadd⟩ | ⟨other, hmem, hne, hadd⟩
  · exact Or.inl ⟨entries, h.known (List.mem_of_getElem? hv), v, hadd⟩
  · exact Or.inl ⟨entries ++ [e], h.new hnew, _, hadd⟩
  · exact Or.inr ⟨other, (h.mem_iff _).1 hmem, hne, hadd⟩

/-- Names are added up to the first one that was met with another type. -/
theorem addAll (h : Tabulates met entries) (es : Typing) :
    (∃ entries', Tabulates (met ++ es) entries' ∧
      Variables.addAll es (ofTyping entries) = .ok () (ofTyping entries')) ∨
    ¬ OneTyped (met ++ es) ∧
      ∃ err vars, Variables.addAll es (ofTyping entries) = .error err vars := by
  induction es generalizing met entries with
  | nil =>
    rw [List.append_nil]
    exact Or.inl ⟨entries, h, rfl⟩
  | cons e es ih =>
    rcases h.add e with ⟨entries', h', v, hadd⟩ | ⟨other, hmem, hne, err, hadd⟩
    · have hdiscard : discard (Variables.add e.1 e.2) (ofTyping entries) =
          .ok () (ofTyping entries') := EStateM.bind_of_ok hadd
      rw [Variables.addAll, EStateM.bind_of_ok hdiscard, List.append_cons]
      exact ih h'
    · have hdiscard : discard (Variables.add e.1 e.2) (ofTyping entries) =
          .error err (ofTyping entries) := EStateM.bind_of_error hadd
      refine Or.inr ⟨fun hone => ?_, err, _, EStateM.bind_of_error hdiscard⟩
      exact hne (hone e.1 other e.2 (List.mem_append_left _ hmem) (by simp))

end Tabulates

theorem ofFunc_tabulates {f : Func} (h : blockIsWhole f.body = true) :
    (∃ entries, Tabulates f.mentions entries ∧ ofFunc f = .ok (ofTyping entries)) ∨
    ¬ OneTyped f.mentions ∧ ∃ err, ofFunc f = .error err := by
  rw [ofFunc_eq_collect h]
  rcases Tabulates.nil.addAll f.mentions with ⟨entries, htab, hrun⟩ | ⟨hone, err, vars, hrun⟩
  · have hrun : addAll f.mentions empty = .ok () (ofTyping entries) := hrun
    exact Or.inl ⟨entries, htab, by rw [collect, hrun]⟩
  · have hrun : addAll f.mentions empty = .error err vars := hrun
    exact Or.inr ⟨hone, err, by rw [collect, hrun]⟩

/-- After any calls, names and numbers of a table belong to each other, and a number keeps its name
and its type whatever is called later. The table of a function without missing parts exists if and
only if no name is mentioned with two types, and then numbers the names in the order in which they
are first mentioned. -/
theorem interning :
    (∀ cs, (after cs).Interned) ∧
    (∀ cs ds, ∀ i < (after cs).size, Keeps i (after cs) (after (cs ++ ds))) ∧
    (∀ cs name ty v vars, add name ty (after cs) = .ok v vars → ∀ ds,
      let later := after (cs ++ .add name ty :: ds)
      v < later.size ∧ later.name v = name ∧ later.ty v = ty) ∧
    ∀ f, blockIsWhole f.body = true →
      ((∃ vars, ofFunc f = .ok vars) ↔ OneTyped f.mentions) ∧
      ∀ vars, ofFunc f = .ok vars →
        vars.size = (f.mentions.map Prod.fst).eraseDups.length ∧
        (∀ name v, vars.find? name = some v ↔
          (f.mentions.map Prod.fst).eraseDups[v]? = some name) ∧
        ∀ name ty, (name, ty) ∈ f.mentions → ∃ v, vars.find? name = some v ∧ vars.ty v = ty := by
  refine ⟨interned_after, fun cs ds i hi => keeps_after_append ds hi,
    fun cs name ty v vars hadd ds => ?_, fun f hf => ?_⟩
  · obtain ⟨hlt, hname, hty⟩ := after_concat_add hadd
    obtain ⟨hlt', hname', hty'⟩ := keeps_after_append ds hlt
    rw [List.append_cons]
    exact ⟨hlt', hname'.trans hname, hty'.trans hty⟩
  · rcases ofFunc_tabulates hf with ⟨entries, htab, hok⟩ | ⟨hone, err, herror⟩
    · refine ⟨⟨fun _ => htab.oneTyped, fun _ => ⟨_, hok⟩⟩, fun vars hvars => ?_⟩
      obtain rfl : ofTyping entries = vars := Except.ok.inj (hok.symm.trans hvars)
      refine ⟨htab.size_eq, htab.find?_iff, fun name ty hmem => ?_⟩
      exact find?_of_mem htab.nodup ((htab.mem_iff _).2 hmem)
    · have hnone : ∀ vars, ofFunc f ≠ .ok vars := by
        intro vars hvars
        cases herror.symm.trans hvars
      refine ⟨⟨?_, fun h => absurd h hone⟩, fun vars hvars => absurd hvars (hnone vars)⟩
      rintro ⟨vars, hvars⟩
      exact absurd hvars (hnone vars)

/-- A block that fails half way between two additions; a function with a branch, and the same one
with a parameter that is read at another type. -/
theorem interning_branch :
    let cs : List Call :=
      [.add "a" .int, .addBlock [.atom (.var "b" .int), .atom (.var "a" .float)], .add "c" .bool]
    let function (ty : Ty) : Func :=
      ⟨"f", [⟨"p", .int⟩, ⟨"x", .float⟩],
        [.bind "r" (.branch (.var "p" ty)
          [.bind "s" (.binary .times (.var "x" .float) (.var "x" .float) .float),
            .atom (.var "s" .float)]
          (some [.atom (.var "x" .float)])),
        .unary .neg (.var "r" .float) .float]⟩
    (after cs).find? "b" = some 1 ∧ (after cs).name 2 = "c" ∧
      Keeps 1 (after cs) (after (cs ++ [.add "b" .float, .add "d" .int])) ∧
      (after (cs ++ .add "d" .int :: cs)).name 3 = "d" ∧
      (∃ vars, ofFunc (function .int) = .ok vars ∧ vars.size = 4 ∧ vars.find? "s" = some 2 ∧
        vars.find? "r" = some 3) ∧
      OneTyped (function .int).mentions ∧ ¬ ∃ vars, ofFunc (function .float) = .ok vars := by
  intro cs function
  obtain ⟨hinterned, hkeeps, hadd, hfunc⟩ := interning
  have hcs : after cs = ofTyping [("a", .int), ("b", .int), ("c", .bool)] := by decide +kernel
  have hlt : 1 < (after cs).size := by rw [hcs]; decide
  have hb : (after cs).name 1 = "b" := by rw [hcs]; rfl
  obtain ⟨grown, hd⟩ : ∃ vars, add "d" .int (after cs) = .ok 3 vars := by
    rw [hcs]
    exact ⟨_, add_of_not_mem (by decide) .int⟩
  obtain ⟨hsome, hnames⟩ := hfunc (function .int) (by decide +kernel)
  have hvars : ofFunc (function .int) =
      .ok (ofTyping [("p", .int), ("x", .float), ("s", .float), ("r", .float)]) := by
    decide +kernel
  obtain ⟨hlength, hfind, _⟩ := hnames _ hvars
  refine ⟨hb ▸ (hinterned cs).find?_name 1 hlt, by rw [hcs]; rfl, hkeeps cs _ 1 hlt,
    (hadd cs "d" .int 3 _ hd cs).2.1,
    ⟨_, hvars, hlength.trans (by decide +kernel), (hfind "s" 2).2 (by decide +kernel),
      (hfind "r" 3).2 (by decide +kernel)⟩, hsome.1 ⟨_, hvars⟩, ?_⟩
  rw [(hfunc (function .float) (by decide +kernel)).1]
  intro hone
  have hclash : Ty.int = Ty.float :=
    hone "p" .int .float (by decide +kernel) (by decide +kernel)
  cases hclash

end Variables

end ExprBackend
