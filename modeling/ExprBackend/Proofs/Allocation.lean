import ExprBackend.Pipeline
import ExprBackend.Proofs.Coloring
import ExprBackend.Proofs.Conflicts
import ExprBackend.Proofs.LiveNames
import ExprBackend.Proofs.Variables

/-!
# Locations of variables

Every name of a function gets a location that suits its type, and nothing else gets one. A name
has none exactly if it is never read, and no two names that are live at one point share a register.
-/

namespace ExprBackend

/-- What the check of a pool makes sure of. -/
structure Pools.Accepted (p : Pools) : Prop where
  general : p.general.Nodup
  float : p.float.Nodup
  reg : ∀ r ∈ p.general, r ∉ Reg.reserved ∧ ∃ i, registerIndex? r.number = some i
  xreg : ∀ r ∈ p.float, r ∉ XReg.reserved ∧ ∃ i, registerIndex? r.number = some i

theorem registerIndex?_of_range {n : Int} (h : ¬ (n < 0 ∨ 15 < n)) :
    ∃ i, registerIndex? n = some i := by
  have hrange : 0 ≤ n ∧ n < 16 := by omega
  exact ⟨⟨n.toNat, by omega⟩, dif_pos hrange⟩

namespace Pools

theorem checkRegs_ok {seen rs : List Reg} (h : checkRegs seen rs = .ok ()) :
    rs.Nodup ∧ (∀ r ∈ rs, r ∉ seen) ∧
      ∀ r ∈ rs, r ∉ Reg.reserved ∧ ∃ i, registerIndex? r.number = some i := by
  induction rs generalizing seen with
  | nil => simp
  | cons r rs ih =>
    rw [checkRegs] at h
    split_ifs at h with hrange hreserved hseen
    obtain ⟨hnodup, hfresh, hall⟩ := ih h
    refine ⟨List.nodup_cons.2 ⟨fun hr => hfresh r hr (by simp), hnodup⟩, ?_, ?_⟩
    · rintro s (_ | ⟨_, hs⟩)
      · exact hseen
      · exact fun hmem => hfresh s hs (List.mem_cons_of_mem r hmem)
    · rintro s (_ | ⟨_, hs⟩)
      · exact ⟨hreserved, registerIndex?_of_range hrange⟩
      · exact hall s hs

theorem checkXRegs_ok {seen rs : List XReg} (h : checkXRegs seen rs = .ok ()) :
    rs.Nodup ∧ (∀ r ∈ rs, r ∉ seen) ∧
      ∀ r ∈ rs, r ∉ XReg.reserved ∧ ∃ i, registerIndex? r.number = some i := by
  induction rs generalizing seen with
  | nil => simp
  | cons r rs ih =>
    rw [checkXRegs] at h
    split_ifs at h with hrange hreserved hseen
    obtain ⟨hnodup, hfresh, hall⟩ := ih h
    refine ⟨List.nodup_cons.2 ⟨fun hr => hfresh r hr (by simp), hnodup⟩, ?_, ?_⟩
    · rintro s (_ | ⟨_, hs⟩)
      · exact hseen
      · exact fun hmem => hfresh s hs (List.mem_cons_of_mem r hmem)
    · rintro s (_ | ⟨_, hs⟩)
      · exact ⟨hreserved, registerIndex?_of_range hrange⟩
      · exact hall s hs

theorem accepted_of_check {p : Pools} (h : p.check = .ok ()) : p.Accepted := by
  rw [check, Except.bind_eq_ok] at h
  obtain ⟨_, hgeneral, hfloat⟩ := h
  obtain ⟨hnodup, _, hreg⟩ := checkRegs_ok hgeneral
  obtain ⟨hnodup', _, hxreg⟩ := checkXRegs_ok hfloat
  exact ⟨hnodup, hnodup', hreg, hxreg⟩

end Pools

namespace Coloring

variable {C : Type} {c : Coloring C} {ofColor : C → Location} {v : Nat} {l : Location}

theorem mem_locations : (v, l) ∈ c.locations ofColor ↔ (∃ x, (v, x) ∈ c.colors ∧ ofColor x = l) ∨
    (v ∈ c.spilled ∧ l = .spill) ∨ (v ∈ c.dead ∧ l = .none) := by
  simp only [locations, List.mem_append, List.mem_map, Prod.mk.injEq, or_assoc]
  grind

theorem map_fst_locations (c : Coloring C) (ofColor : C → Location) :
    (c.locations ofColor).map Prod.fst = c.colors.map Prod.fst ++ c.spilled ++ c.dead := by
  simp only [locations, List.map_append, List.map_map, Function.comp_def, List.map_id']

theorem Fits.has_iff {g : Graph} {freq : Frequency} {pool : List C} (h : c.Fits g freq pool)
    (ofColor : C → Location) : g.has v = true ↔ ∃ l, (v, l) ∈ c.locations ofColor := by
  have hmem : v ∈ (c.locations ofColor).map Prod.fst ↔ ∃ l, (v, l) ∈ c.locations ofColor := by
    simp
  rw [← hmem, map_fst_locations, ← h.perm.mem_iff, Graph.mem_present]

end Coloring

def Location.Suits (pools : Pools) (ty : Ty) : Location → Prop
  | .none | .spill => True
  | .reg r => ty ≠ .float ∧ r ∈ pools.general
  | .xreg r => ty = .float ∧ r ∈ pools.float
  | .other _ => False

instance (pools : Pools) (ty : Ty) : ∀ l : Location, Decidable (l.Suits pools ty)
  | .none => isTrue trivial
  | .spill => isTrue trivial
  | .reg r => inferInstanceAs (Decidable (ty ≠ .float ∧ r ∈ pools.general))
  | .xreg r => inferInstanceAs (Decidable (ty = .float ∧ r ∈ pools.float))
  | .other _ => isFalse id

def Location.isRegister : Location → Bool
  | .reg _ | .xreg _ => true
  | _ => false

namespace Func

def numbers (f : Func) : Variables := .ofTyping f.bindings

def seed (f : Func) : List Nat := f.params.filterMap fun p => f.numbers.find? p.name

def points (f : Func) : List Point := Conflicts.pointsOf f.numbers f.body f.seed

variable {f : Func}

theorem Scoped.injective (hf : f.Scoped) : f.numbers.Injective := by
  intro y z v hy hz
  rw [← Variables.name_of_find? hf.nodup hy, ← Variables.name_of_find? hf.nodup hz]

theorem Scoped.find?_isSome (hf : f.Scoped) {z : String}
    (hz : z ∈ f.bindings.map Prod.fst) : (f.numbers.find? z).isSome = true := by
  obtain ⟨e, he, rfl⟩ := List.mem_map.1 hz
  obtain ⟨v, hv, _⟩ := Variables.find?_of_mem hf.nodup he
  exact Option.isSome_iff_exists.2 ⟨v, hv⟩

theorem mem_bindings_of_find? {z : String} {v : Nat} (hz : f.numbers.find? z = some v) :
    z ∈ f.bindings.map Prod.fst := by
  by_contra hmem
  rw [numbers, Variables.find?_eq_none_iff.2 hmem] at hz
  cases hz

theorem number_params {vars : Variables} {ps : List Param}
    (h : ∀ p ∈ ps, (vars.find? p.name).isSome = true) :
    (ps.mapM fun p => vars.number p.name : Except Failure (List Nat)) =
      .ok (ps.filterMap fun p => vars.find? p.name) := by
  induction ps with
  | nil => rfl
  | cons p ps ih =>
    obtain ⟨v, hv⟩ := Option.isSome_iff_exists.1 (h p (by simp))
    rw [List.mapM_cons, Liveness.number_ok hv, ih fun q hq => h q (List.mem_cons_of_mem p hq),
      List.filterMap_cons, hv]
    rfl

end Func

theorem Atom.numbered_of_inScope {vars : Variables} {scope : Typing} (x : Atom)
    (hx : x.inScope scope = true)
    (hscope : ∀ z ∈ scope.map Prod.fst, (vars.find? z).isSome = true) :
    x.numbered vars = true := by
  by_cases hvar : x.isVar = true
  · have hfind := hscope x.name (Atom.reads_inScope hx x.name (Atom.mem_reads.2 ⟨hvar, rfl⟩))
    simp [Atom.numbered, hfind]
  · simp [Atom.numbered, hvar]

mutual

theorem Expr.numbered_of_inScope {vars : Variables} : ∀ (x : Expr) (scope : Typing),
    x.inScope scope = true → (∀ z ∈ scope.map Prod.fst, (vars.find? z).isSome = true) →
    (∀ z ∈ x.bindings.map Prod.fst, (vars.find? z).isSome = true) → x.numbered vars = true
  | .atom x, scope, hx, hscope, _ => by
    rw [Expr.inScope] at hx
    exact x.numbered_of_inScope hx hscope
  | .bind name init, scope, hx, hscope, hbound => by
    rw [Expr.inScope, Bool.and_eq_true] at hx
    simp only [Expr.bindings, List.map_append, List.mem_append] at hbound
    rw [Expr.numbered, Bool.and_eq_true]
    exact ⟨hbound name (by simp), init.numbered_of_inScope scope hx.2 hscope
      fun z hz => hbound z (Or.inl hz)⟩
  | .unary op x ty, scope, hx, hscope, _ => by
    rw [Expr.inScope] at hx
    exact x.numbered_of_inScope hx hscope
  | .binary op l r ty, scope, hx, hscope, _ => by
    simp only [Expr.inScope, Bool.and_eq_true] at hx
    rw [Expr.numbered, Bool.and_eq_true]
    exact ⟨l.numbered_of_inScope hx.1 hscope, r.numbered_of_inScope hx.2 hscope⟩
  | .branch cond onTrue none, scope, hx, hscope, hbound => by
    simp only [Expr.inScope, Bool.and_eq_true] at hx
    rw [Expr.bindings] at hbound
    simp only [Expr.numbered, Bool.and_eq_true]
    exact ⟨⟨cond.numbered_of_inScope hx.1 hscope,
      blockNumbered_of_inScope onTrue scope hx.2 hscope hbound⟩, trivial⟩
  | .branch cond onTrue (some b), scope, hx, hscope, hbound => by
    simp only [Expr.inScope, Bool.and_eq_true] at hx
    simp only [Expr.bindings, List.map_append, List.mem_append] at hbound
    simp only [Expr.numbered, Bool.and_eq_true]
    exact ⟨⟨cond.numbered_of_inScope hx.1.1 hscope,
      blockNumbered_of_inScope onTrue scope hx.1.2 hscope fun z hz => hbound z (Or.inl hz)⟩,
      blockNumbered_of_inScope b scope hx.2 hscope fun z hz => hbound z (Or.inr hz)⟩
  | .missing, scope, hx, _, _ => by simp [Expr.inScope] at hx

theorem blockNumbered_of_inScope {vars : Variables} : ∀ (xs : List Expr) (scope : Typing),
    blockInScope xs scope = true →
    (∀ z ∈ scope.map Prod.fst, (vars.find? z).isSome = true) →
    (∀ z ∈ (blockBindings xs).map Prod.fst, (vars.find? z).isSome = true) →
    blockNumbered vars xs = true
  | [], scope, hxs, _, _ => rfl
  | x :: xs, scope, hxs, hscope, hbound => by
    rw [blockInScope, Bool.and_eq_true] at hxs
    simp only [blockBindings, List.map_append, List.mem_append] at hbound
    rw [blockNumbered, Bool.and_eq_true]
    refine ⟨x.numbered_of_inScope scope hxs.1 hscope fun z hz => hbound z (Or.inl hz),
      blockNumbered_of_inScope xs _ hxs.2 ?_ fun z hz => hbound z (Or.inr hz)⟩
    intro z hz
    rw [List.map_append, List.mem_append] at hz
    rcases hz with hz | hz
    · exact hbound z (Or.inl (List.map_subset _ x.declares_subset hz))
    · exact hscope z hz

end

namespace Conflicts

variable {vars : Variables} {z : String} {v : Nat}

mutual

theorem binds_innerPoints (hz : vars.find? z = some v) : ∀ (x : Expr) (scope : Typing) (s : BitSet),
    x.inScope scope = true → x.isBind = false → z ∈ x.bindings.map Prod.fst →
    ∃ p ∈ Liveness.innerPoints vars x s, Binds vars p v
  | .atom x, scope, s, hx, _, hmem => by simp [Expr.bindings] at hmem
  | .bind name init, scope, s, hx, hbind, hmem => by cases hbind
  | .unary op x ty, scope, s, hx, _, hmem => by simp [Expr.bindings] at hmem
  | .binary op l r ty, scope, s, hx, _, hmem => by simp [Expr.bindings] at hmem
  | .branch cond onTrue none, scope, s, hx, _, hmem => by
    simp only [Expr.inScope, Bool.and_eq_true] at hx
    rw [Expr.bindings] at hmem
    simp only [Liveness.innerPoints, List.append_nil]
    exact binds_blockPoints hz onTrue scope s hx.2 hmem
  | .branch cond onTrue (some b), scope, s, hx, _, hmem => by
    simp only [Expr.inScope, Bool.and_eq_true] at hx
    rw [Expr.bindings, List.map_append, List.mem_append] at hmem
    simp only [Liveness.innerPoints]
    rcases hmem with hmem | hmem
    · obtain ⟨p, hp, hbinds⟩ := binds_blockPoints hz onTrue scope s hx.1.2 hmem
      exact ⟨p, List.mem_append_left _ hp, hbinds⟩
    · obtain ⟨p, hp, hbinds⟩ := binds_blockPoints hz b scope s hx.2 hmem
      exact ⟨p, List.mem_append_right _ hp, hbinds⟩
  | .missing, scope, s, hx, _, hmem => by simp [Expr.bindings] at hmem

theorem binds_blockPoints (hz : vars.find? z = some v) :
    ∀ (xs : List Expr) (scope : Typing) (s : BitSet), blockInScope xs scope = true →
    z ∈ (blockBindings xs).map Prod.fst → ∃ p ∈ Liveness.blockPoints vars xs s, Binds vars p v
  | [], scope, s, hxs, hmem => by simp [blockBindings] at hmem
  | x :: xs, scope, s, hxs, hmem => by
    rw [blockInScope, Bool.and_eq_true] at hxs
    rw [blockBindings, List.map_append, List.mem_append] at hmem
    simp only [Liveness.blockPoints, List.mem_append, List.mem_singleton]
    rcases hmem with hmem | hmem
    · by_cases hlast : ∃ init, x = .bind z init
      · obtain ⟨init, rfl⟩ := hlast
        exact ⟨_, Or.inr rfl, z, init, rfl, hz⟩
      · have hinner : ∃ p ∈ Liveness.innerPoints vars x (Liveness.liveBlock vars xs s),
            Binds vars p v := by
          match x with
          | .bind name init =>
            rw [Expr.inScope, Bool.and_eq_true, Bool.not_eq_true'] at hxs
            have hne : z ≠ name := fun h => hlast ⟨init, by rw [h]⟩
            have hmem : z ∈ init.bindings.map Prod.fst := by
              simpa [Expr.bindings, hne] using hmem
            rw [Liveness.innerPoints]
            exact binds_innerPoints hz init scope _ hxs.1.2 hxs.1.1 hmem
          | .atom x => exact binds_innerPoints hz (.atom x) scope _ hxs.1 rfl hmem
          | .unary op x ty => exact binds_innerPoints hz (.unary op x ty) scope _ hxs.1 rfl hmem
          | .binary op l r ty =>
            exact binds_innerPoints hz (.binary op l r ty) scope _ hxs.1 rfl hmem
          | .branch cond onTrue onFalse =>
            exact binds_innerPoints hz (.branch cond onTrue onFalse) scope _ hxs.1 rfl hmem
          | .missing => exact binds_innerPoints hz .missing scope _ hxs.1 rfl hmem
        obtain ⟨p, hp, hbinds⟩ := hinner
        exact ⟨p, Or.inl (Or.inr hp), hbinds⟩
    · obtain ⟨p, hp, hbinds⟩ := binds_blockPoints hz xs _ s hxs.2 hmem
      exact ⟨p, Or.inl (Or.inl hp), hbinds⟩

end

end Conflicts

/-- Locations as a function that was loaded needs them. -/
structure Assignment.Fits (asg : Assignment) (f : Func) (pools : Pools) : Prop where
  located : ∀ e ∈ f.bindings, ∃ l, asg.find? e.1 = some l ∧ l.Suits pools e.2
  dead_iff : ∀ z ∈ f.bindings.map Prod.fst,
    asg.find? z = some .none ↔ z ∉ blockReads f.body
  apart : ∀ p ∈ f.points, ∀ y z, y ≠ z → f.numbers.Live p.live y → f.numbers.Live p.live z →
    ∀ l, l.isRegister = true → asg.find? y = some l → asg.find? z ≠ some l

/-- Locations of the right kind for every name of a function. Names that are live together may still
share a register. -/
structure Assignment.Suits (asg : Assignment) (f : Func) (pools : Pools) : Prop where
  located : ∀ e ∈ f.bindings, ∃ l, asg.find? e.1 = some l ∧ l.Suits pools e.2
  unread : ∀ z ∈ f.bindings.map Prod.fst, asg.find? z = some .none → z ∉ blockReads f.body

instance (asg : Assignment) (f : Func) (pools : Pools) : Decidable (asg.Suits f pools) :=
  decidable_of_iff ((∀ e ∈ f.bindings, ∃ l ∈ asg.find? e.1, l.Suits pools e.2) ∧
      ∀ z ∈ f.bindings.map Prod.fst, asg.find? z = some .none → z ∉ blockReads f.body)
    ⟨fun ⟨h₁, h₂⟩ => ⟨h₁, h₂⟩, fun ⟨h₁, h₂⟩ => ⟨h₁, h₂⟩⟩

theorem Assignment.Fits.suits {asg : Assignment} {f : Func} {pools : Pools}
    (h : asg.Fits f pools) : asg.Suits f pools where
  located := h.located
  unread := fun z hz => (h.dead_iff z hz).1

theorem Graph.coloring_ok {C : Type} [DecidableEq C] {g : Graph} (hg : g.Valid) (freq : Frequency)
    {pool : List C} (hpool : pool.Nodup) :
    ∃ c, g.coloring freq pool = .ok c ∧ c.Fits g freq pool := by
  obtain ⟨c, g', hcolor, _, hfits⟩ := exists_color hg freq hpool
  exact ⟨c, by rw [coloring, hcolor], hfits⟩

/-- The locations of all numbers, before they are listed by name. -/
structure Conflicts.Located (c : Conflicts) (vars : Variables) (pools : Pools)
    (nodes : Nat → Prop) (edges : Nat → Nat → Prop) (locs : List (Nat × Location)) : Prop where
  nodup : (locs.map Prod.fst).Nodup
  nodes_iff : ∀ v, nodes v ↔ ∃ l, (v, l) ∈ locs
  suits : ∀ v l, (v, l) ∈ locs → l.Suits pools (vars.ty v)
  dead_iff : ∀ v, (v, .none) ∈ locs ↔ nodes v ∧ c.freq.get v = 0
  apart : ∀ u v l, edges u v → l.isRegister = true → (u, l) ∈ locs → (v, l) ∉ locs

section Assign

variable {c : Conflicts} {vars : Variables} {pools : Pools} {general : Coloring Reg}
  {float : Coloring XReg}

theorem Conflicts.assign_eq
    (hgeneral : (c.graph false).coloring c.freq pools.general = .ok general)
    (hfloat : (c.graph true).coloring c.freq pools.float = .ok float) :
    c.assign vars pools = .ok ((general.locations .reg ++ float.locations .xreg).map
      fun e => (vars.name e.1, e.2)) := by
  rw [assign, Except.bind_eq_ok]
  exact ⟨general, hgeneral, Except.bind_eq_ok.2 ⟨float, hfloat, rfl⟩⟩

theorem Conflicts.located_locations {nodes : Nat → Prop} {edges : Nat → Nat → Prop}
    (hc : Shows vars nodes edges c) (hfit₀ : general.Fits (c.graph false) c.freq pools.general)
    (hfit₁ : float.Fits (c.graph true) c.freq pools.float) :
    c.Located vars pools nodes edges (general.locations .reg ++ float.locations .xreg) := by
  have hhas₀ (v : Nat) : (∃ l, (v, l) ∈ general.locations .reg) ↔
      nodes v ∧ vars.isFloat v = false := by rw [← hfit₀.has_iff, hc.has_iff]
  have hhas₁ (v : Nat) : (∃ l, (v, l) ∈ float.locations .xreg) ↔
      nodes v ∧ vars.isFloat v = true := by rw [← hfit₁.has_iff, hc.has_iff]
  constructor
  · rw [List.map_append, List.nodup_append, Coloring.map_fst_locations,
      Coloring.map_fst_locations]
    refine ⟨hfit₀.nodup, hfit₁.nodup, ?_⟩
    rintro u hu v hv rfl
    rw [← hfit₀.perm.mem_iff, Graph.mem_present] at hu
    rw [← hfit₁.perm.mem_iff, Graph.mem_present] at hv
    have hint := ((hc.has_iff false u).1 hu).2
    rw [((hc.has_iff true u).1 hv).2] at hint
    cases hint
  · intro v
    simp only [List.mem_append, exists_or, hhas₀, hhas₁]
    cases vars.isFloat v <;> simp
  · intro v l hmem
    rcases List.mem_append.1 hmem with hmem | hmem
    · have hclass := ((hhas₀ v).1 ⟨l, hmem⟩).2
      rcases Coloring.mem_locations.1 hmem with ⟨r, hr, rfl⟩ | ⟨_, rfl⟩ | ⟨_, rfl⟩
      · exact ⟨by simpa [Variables.isFloat] using hclass, hfit₀.mem_pool _ hr⟩
      · trivial
      · trivial
    · have hclass := ((hhas₁ v).1 ⟨l, hmem⟩).2
      rcases Coloring.mem_locations.1 hmem with ⟨r, hr, rfl⟩ | ⟨_, rfl⟩ | ⟨_, rfl⟩
      · exact ⟨by simpa [Variables.isFloat] using hclass, hfit₁.mem_pool _ hr⟩
      · trivial
      · trivial
  · intro v
    simp only [List.mem_append, Coloring.mem_locations, reduceCtorEq, and_false, exists_false,
      false_or, and_true, hfit₀.dead_iff, hfit₁.dead_iff, hc.has_iff]
    cases vars.isFloat v <;> simp
  · intro u v l hedge hl hu hv
    cases l with
    | reg r =>
      have hcolor {w : Nat} (hw : (w, .reg r) ∈ general.locations .reg ++ float.locations .xreg) :
          (w, r) ∈ general.colors ∧ vars.isFloat w = false := by
        rcases List.mem_append.1 hw with hw | hw
        · refine ⟨?_, ((hhas₀ w).1 ⟨_, hw⟩).2⟩
          simpa [Coloring.mem_locations] using hw
        · simp [Coloring.mem_locations] at hw
      have hadj := (hc.adj_iff false u v).2 ⟨hedge, (hcolor hu).2, (hcolor hv).2⟩
      exact hfit₀.proper _ (hcolor hu).1 _ (hcolor hv).1 hadj rfl
    | xreg r =>
      have hcolor {w : Nat} (hw : (w, .xreg r) ∈ general.locations .reg ++ float.locations .xreg) :
          (w, r) ∈ float.colors ∧ vars.isFloat w = true := by
        rcases List.mem_append.1 hw with hw | hw
        · simp [Coloring.mem_locations] at hw
        · refine ⟨?_, ((hhas₁ w).1 ⟨_, hw⟩).2⟩
          simpa [Coloring.mem_locations] using hw
      have hadj := (hc.adj_iff true u v).2 ⟨hedge, (hcolor hu).2, (hcolor hv).2⟩
      exact hfit₁.proper _ (hcolor hu).1 _ (hcolor hv).1 hadj rfl
    | none => cases hl
    | spill => cases hl
    | other k => cases hl

theorem Conflicts.assign_ok {nodes : Nat → Prop} {edges : Nat → Nat → Prop}
    (hc : Shows vars nodes edges c) (hgeneral : pools.general.Nodup) (hfloat : pools.float.Nodup) :
    ∃ locs, c.assign vars pools = .ok (locs.map fun e => (vars.name e.1, e.2)) ∧
      c.Located vars pools nodes edges locs := by
  obtain ⟨general, hcolor₀, hfit₀⟩ := Graph.coloring_ok (hc.valid false) c.freq hgeneral
  obtain ⟨float, hcolor₁, hfit₁⟩ := Graph.coloring_ok (hc.valid true) c.freq hfloat
  exact ⟨_, assign_eq hcolor₀ hcolor₁, located_locations hc hfit₀ hfit₁⟩

theorem Coloring.mem_pool {C : Type} [DecidableEq C] {g : Graph} {freq : Frequency} {pool : List C}
    {c : Coloring C} (h : g.coloring freq pool = .ok c) : ∀ e ∈ c.colors, e.2 ∈ pool := by
  unfold Graph.coloring at h
  split at h
  next hcolor =>
    cases h
    exact Graph.mem_pool_of_color hcolor
  next => cases h

/-- Whatever the conflicts are, general registers are taken from the pool. -/
theorem Conflicts.mem_general_of_assign {asg : Assignment} (h : c.assign vars pools = .ok asg)
    {z : String} {r : Reg} (hz : asg.find? z = some (.reg r)) : r ∈ pools.general := by
  obtain ⟨general, hgeneral, h⟩ := Except.bind_eq_ok.1 h
  obtain ⟨float, _, h⟩ := Except.bind_eq_ok.1 h
  cases h
  obtain ⟨⟨v, l⟩, he, heq⟩ := List.mem_map.1 (mem_of_lookup hz)
  obtain rfl : l = .reg r := congrArg Prod.snd heq
  rcases List.mem_append.1 he with he | he
  · rcases Coloring.mem_locations.1 he with ⟨r', hr', hr⟩ | ⟨_, hr⟩ | ⟨_, hr⟩
    · cases hr
      exact Coloring.mem_pool hgeneral _ hr'
    · cases hr
    · cases hr
  · simp [Coloring.mem_locations] at he

end Assign

theorem Func.mem_general_of_assignment {f : Func} {pools : Pools} {asg : Assignment}
    (h : f.assignment pools = .ok asg) {z : String} {r : Reg} (hz : asg.find? z = some (.reg r)) :
    r ∈ pools.general := by
  obtain ⟨vars, _, h⟩ := Except.bind_eq_ok.1 h
  obtain ⟨params, _, h⟩ := Except.bind_eq_ok.1 h
  obtain ⟨conflicts, _, h⟩ := Except.bind_eq_ok.1 h
  exact Conflicts.mem_general_of_assign h hz

/-- The location of a name is that of its number. -/
theorem find?_names {vars : Variables} {locs : List (Nat × Location)}
    (hnodup : (locs.map Prod.fst).Nodup)
    (hnames : ∀ e ∈ locs, vars.find? (vars.name e.1) = some e.1) {z : String} {v : Nat}
    {l : Location} (hz : vars.find? z = some v) (hname : vars.name v = z) :
    Assignment.find? (locs.map fun e => (vars.name e.1, e.2)) z = some l ↔ (v, l) ∈ locs := by
  constructor
  · intro h
    obtain ⟨e, he, heq⟩ := List.mem_map.1 (mem_of_lookup h)
    obtain ⟨rfl, rfl⟩ : vars.name e.1 = z ∧ e.2 = l := Prod.mk.inj heq
    have heq : e.1 = v := Option.some.inj ((hnames e he).symm.trans hz)
    rwa [← heq]
  · intro h
    have hkeys : ((locs.map fun e => (vars.name e.1, e.2)).map Prod.fst).Nodup := by
      rw [List.map_map, Function.comp_def]
      refine (List.nodup_map_iff_inj_on (hnodup.of_map _)).2 ?_
      intro d hd e he heq
      have hnum := hnames d hd
      rw [show vars.name d.1 = vars.name e.1 from heq, hnames e he, Option.some.injEq] at hnum
      exact List.inj_on_of_nodup_map hnodup hd he hnum.symm
    rw [← hname]
    exact lookup_of_mem hkeys (List.mem_map_of_mem h)

theorem Func.isNode {f : Func} (hf : f.Scoped) {z : String} {v : Nat}
    (hz : z ∈ f.bindings.map Prod.fst) (hv : f.numbers.find? z = some v) :
    Conflicts.IsNode f.numbers f.body f.seed v := by
  rw [Func.bindings, List.map_append, List.mem_append] at hz
  rcases hz with hz | hz
  · obtain ⟨p, hp, rfl⟩ : ∃ p ∈ f.params, p.name = z := by simpa [Func.paramTyping] using hz
    exact Or.inl (List.mem_filterMap.2 ⟨p, hp, hv⟩)
  · obtain ⟨p, hp, hbinds⟩ := Conflicts.binds_blockPoints hv f.body f.paramTyping
      (BitSet.ofList f.seed) hf.inScope hz
    exact Or.inr ⟨p, hp, Or.inl hbinds⟩

theorem Func.named_of_isNode {f : Func} {v : Nat}
    (h : Conflicts.IsNode f.numbers f.body f.seed v) : ∃ z, f.numbers.find? z = some v := by
  have hseed : f.numbers.Named (BitSet.ofList f.seed) := by
    intro u hu
    rw [BitSet.contains_ofList, decide_eq_true_iff] at hu
    obtain ⟨p, _, hp⟩ := List.mem_filterMap.1 hu
    exact ⟨p.name, hp⟩
  rcases h with h | ⟨p, hp, ⟨name, init, _, hname⟩ | hlive⟩
  · exact hseed v (by rw [BitSet.contains_ofList]; exact decide_eq_true h)
  · exact ⟨name, hname⟩
  · exact Liveness.named_blockPoints f.body hseed p hp v hlive

/-- The nodes are the numbers of the names. -/
theorem Func.isNode_iff_named {f : Func} (hf : f.Scoped) {v : Nat} :
    Conflicts.IsNode f.numbers f.body f.seed v ↔ ∃ z, f.numbers.find? z = some v := by
  refine ⟨named_of_isNode, ?_⟩
  rintro ⟨z, hz⟩
  exact isNode hf (mem_bindings_of_find? hz) hz

theorem Func.mem_bindings_param {f : Func} {p : Param} (hp : p ∈ f.params) :
    (p.name, p.ty) ∈ f.bindings :=
  List.mem_append_left _ (List.mem_map.2 ⟨p, hp, rfl⟩)

theorem Func.unread_iff {f : Func} (hf : f.Scoped) {z : String} {v : Nat}
    (hv : f.numbers.find? z = some v) :
    (Liveness.freqBlock f.numbers f.body {}).get v = 0 ↔ z ∉ blockReads f.body := by
  have hempty : Frequency.get {} v = 0 := by simp [Frequency.get]
  have hmem : v ∈ (blockReads f.body).filterMap f.numbers.find? ↔ z ∈ blockReads f.body := by
    rw [List.mem_filterMap]
    constructor
    · rintro ⟨y, hy, hyv⟩
      rwa [hf.injective z y v hv hyv]
    · intro h
      exact ⟨z, h, hv⟩
  rw [Liveness.get_freqBlock, hempty, ← hmem, ← List.count_eq_zero]
  omega

theorem Func.numbered_body {f : Func} (hf : f.Scoped) :
    blockNumbered f.numbers f.body = true := by
  refine blockNumbered_of_inScope f.body f.paramTyping hf.inScope ?_ ?_
  · exact fun z hz => hf.find?_isSome (List.map_subset _ (List.subset_append_left _ _) hz)
  · exact fun z hz => hf.find?_isSome (List.map_subset _ (List.subset_append_right _ _) hz)

theorem Func.assignment_eq {f : Func} (hf : f.Scoped) {c : Conflicts}
    (hblock : Conflicts.ofBlock f.numbers f.body f.seed = .ok c) (pools : Pools) :
    f.assignment pools = c.assign f.numbers pools := by
  have hparams : (f.params.mapM fun p => f.numbers.number p.name : Except Failure (List Nat)) =
      .ok f.seed :=
    number_params fun p hp => hf.find?_isSome (List.mem_map_of_mem (mem_bindings_param hp))
  have hnumbers : Variables.ofFunc f = .ok f.numbers := Variables.ofFunc_ok hf
  simp only [assignment, hnumbers, hparams, hblock, bind, Except.bind]

/-- The location of a name is that of its number, and a name without a number has none. -/
theorem Func.find?_locations {f : Func} (hf : f.Scoped) {locs : List (Nat × Location)}
    (hnodup : (locs.map Prod.fst).Nodup)
    (hnamed : ∀ e ∈ locs, ∃ z, f.numbers.find? z = some e.1) {z : String} {l : Location} :
    Assignment.find? (locs.map fun e => (f.numbers.name e.1, e.2)) z = some l ↔
      ∃ v, f.numbers.find? z = some v ∧ (v, l) ∈ locs := by
  have hnames : ∀ e ∈ locs, f.numbers.find? (f.numbers.name e.1) = some e.1 := by
    intro e he
    obtain ⟨z, hz⟩ := hnamed e he
    rw [numbers, Variables.name_of_find? hf.nodup hz]
    exact hz
  have hfind {v : Nat} (hz : f.numbers.find? z = some v) :=
    find?_names hnodup hnames (l := l) hz (Variables.name_of_find? hf.nodup hz)
  constructor
  · intro h
    obtain ⟨e, he, heq⟩ := List.mem_map.1 (mem_of_lookup h)
    obtain rfl : f.numbers.name e.1 = z := congrArg Prod.fst heq
    exact ⟨e.1, hnames e he, (hfind (hnames e he)).1 h⟩
  · rintro ⟨v, hv, hmem⟩
    exact (hfind hv).2 hmem

/-- The names of a function get locations that fit, and no other name gets one. -/
theorem Func.assignment_fits {f : Func} (hf : f.Scoped) {pools : Pools}
    (hgeneral : pools.general.Nodup) (hfloat : pools.float.Nodup) :
    ∃ asg, f.assignment pools = .ok asg ∧ asg.Fits f pools ∧
      ∀ z l, asg.find? z = some l → z ∈ f.bindings.map Prod.fst := by
  obtain ⟨c, hblock, hshows, hfreq⟩ := Conflicts.ofBlock_ok (numbered_body hf) f.seed
  obtain ⟨locs, hassign, hlocs⟩ := Conflicts.assign_ok hshows hgeneral hfloat
  have hfind {z : String} {l : Location} :=
    find?_locations hf hlocs.nodup (z := z) (l := l)
      fun e he => named_of_isNode ((hlocs.nodes_iff e.1).2 ⟨e.2, he⟩)
  have hnumber {z : String} {v : Nat} {l : Location} (hz : f.numbers.find? z = some v) :
      Assignment.find? (locs.map fun e => (f.numbers.name e.1, e.2)) z = some l ↔
        (v, l) ∈ locs := by
    rw [hfind, hz]
    simp
  refine ⟨locs.map fun e => (f.numbers.name e.1, e.2), (assignment_eq hf hblock pools).trans hassign,
    ⟨?_, ?_, ?_⟩, ?_⟩
  · intro e he
    obtain ⟨v, hv, hty⟩ := Variables.find?_of_mem hf.nodup he
    obtain ⟨l, hl⟩ := (hlocs.nodes_iff v).1 (isNode hf (List.mem_map_of_mem he) hv)
    exact ⟨l, (hnumber hv).2 hl, hty ▸ hlocs.suits v l hl⟩
  · intro z hz
    obtain ⟨v, hv⟩ := Option.isSome_iff_exists.1 (hf.find?_isSome hz)
    rw [hnumber hv, hlocs.dead_iff, and_iff_right (isNode hf hz hv), hfreq, Frequency.get_notes,
      unread_iff hf hv]
  · intro p hp y z hne hy hz l hl hfy hfz
    obtain ⟨u, hu, hulive⟩ := hy
    obtain ⟨v, hv, hvlive⟩ := hz
    have huv : u ≠ v := fun h => hne (hf.injective y z u hu (h ▸ hv))
    exact hlocs.apart u v l ⟨p, hp, huv, hulive, hvlive⟩ hl ((hnumber hu).1 hfy)
      ((hnumber hv).1 hfz)
  · intro z l hz
    obtain ⟨v, hv, _⟩ := hfind.1 hz
    exact mem_bindings_of_find? hv

/-- A function that was loaded gets locations that fit. -/
theorem Func.assignment_ok {f : Func} (hf : f.LoaderForm) {pools : Pools}
    (hpools : pools.Accepted) :
    ∃ asg, f.assignment pools = .ok asg ∧ asg.Fits f pools := by
  obtain ⟨asg, hasg, hfits, _⟩ := assignment_fits hf.toScoped hpools.general hpools.float
  exact ⟨asg, hasg, hfits⟩

end ExprBackend
