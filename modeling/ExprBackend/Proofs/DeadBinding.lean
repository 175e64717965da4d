import ExprBackend.Proofs.Compilation
import ExprBackend.Proofs.Insertion
import ExprBackend.Proofs.TwoRuns
import Mathlib.Data.List.Count

/-!
# A dead binding costs nothing

A binding that is never read, of a value that comes from literals, may be put in front of any
statement. The function is compiled exactly if it was before, and to the same code: the new name has
no location, and the other names keep theirs.
-/

namespace ExprBackend

def Func.names (f : Func) : List String := f.bindings.map Prod.fst ++ blockReads f.body

/-- The second function is the first one with a binding of the new name `n` to the constant `v` put
in front of some statement. -/
structure Func.Insertion (n : String) (v : Expr) (f f' : Func) : Prop where
  name_eq : f'.name = f.name
  params_eq : f'.params = f.params
  body : BlockInsertion (.bind n v) f.body f'.body
  constant : v.isConstant = true
  fresh : n ∉ f.names

namespace Func.Insertion

variable {n : String} {v : Expr} {f f' : Func} {σ : Nat → Nat} {k : Nat}

theorem not_mem_bindings (h : Insertion n v f f') : n ∉ f.bindings.map Prod.fst :=
  fun hn => h.fresh (List.mem_append_left _ hn)

theorem avoids (h : Insertion n v f f') : BlockAvoids n f.body := by
  refine ⟨fun hn => h.fresh (List.mem_append_right _ hn), fun hn => h.not_mem_bindings ?_⟩
  rw [Func.bindings, List.map_append]
  exact List.mem_append_right _ hn

theorem ne_param (h : Insertion n v f f') {p : Param} (hp : p ∈ f.params) : p.name ≠ n := by
  intro hpn
  exact h.not_mem_bindings (hpn ▸ List.mem_map_of_mem (Func.mem_bindings_param hp))

theorem bindings_eq (h : Insertion n v f f') :
    ∃ front back, f.bindings = front ++ back ∧ f'.bindings = front ++ (n, v.tyOf) :: back := by
  obtain ⟨front, back, hbody, hbody'⟩ := h.body.blockBindings_eq h.constant
  refine ⟨f.paramTyping ++ front, back, ?_, ?_⟩
  · rw [Func.bindings, hbody, List.append_assoc]
  · rw [Func.bindings, hbody', Func.paramTyping, h.params_eq, ← Func.paramTyping, List.append_assoc]

theorem toScoped (h : Insertion n v f f') (hf : f.Scoped) : f'.Scoped := by
  constructor
  · obtain ⟨front, back, hold, hnew⟩ := h.bindings_eq
    have hnodup := hf.nodup
    have hfresh := h.not_mem_bindings
    rw [hold] at hnodup hfresh
    rw [hnew]
    have hperm : (front ++ (n, v.tyOf) :: back).Perm ((n, v.tyOf) :: (front ++ back)) :=
      List.perm_middle
    exact (hperm.map Prod.fst).nodup_iff.2 (List.nodup_cons.2 ⟨hfresh, hnodup⟩)
  · rw [h.body.blockInScope_eq h.constant _ h.avoids.1, Func.paramTyping, h.params_eq]
    exact hf.inScope

theorem widens (h : Insertion n v f f') (hf : f.Scoped) :
    ∃ σ k, f.numbers.Widens σ k n f'.numbers := by
  obtain ⟨front, back, hold, hnew⟩ := h.bindings_eq
  have hnodup := (h.toScoped hf).nodup
  rw [hnew] at hnodup
  rw [Func.numbers, Func.numbers, hold, hnew]
  exact ⟨_, _, Variables.widens_insert hnodup⟩

theorem seed_eq (h : Insertion n v f f') (hw : f.numbers.Widens σ k n f'.numbers) :
    f'.seed = f.seed.map σ := by
  rw [Func.seed, Func.seed, h.params_eq, List.map_filterMap]
  refine List.filterMap_congr fun p hp => ?_
  rw [hw.old p.name (h.ne_param hp)]

theorem points_move (h : Insertion n v f f') (hw : f.numbers.Widens σ k n f'.numbers) :
    PointsMove σ f.points f'.points := by
  refine h.body.points_move hw h.constant h.avoids fun u => ?_
  rw [h.seed_eq hw]
  simp only [BitSet.contains_ofList, decide_eq_true_iff, List.mem_map]
  grind

theorem liveTogether_iff (h : Insertion n v f f') (hw : f.numbers.Widens σ k n f'.numbers)
    (u w : Nat) : Conflicts.LiveTogether f'.numbers f'.body f'.seed (σ u) (σ w) ↔
      Conflicts.LiveTogether f.numbers f.body f.seed u w := by
  constructor
  · rintro ⟨p', hp', hne, hu, hw'⟩
    obtain ⟨p, hp, hmoves⟩ := (h.points_move hw).back p' hp'
    exact ⟨p, hp, fun huw => hne (congrArg σ huw), (hmoves.contains_iff hw.mono u).1 hu,
      (hmoves.contains_iff hw.mono w).1 hw'⟩
  · rintro ⟨p, hp, hne, hu, hw'⟩
    obtain ⟨p', hp', hmoves⟩ := (h.points_move hw).forth p hp
    exact ⟨p', hp', fun huw => hne (hw.mono.injective huw), (hmoves.contains_iff hw.mono u).2 hu,
      (hmoves.contains_iff hw.mono w).2 hw'⟩

theorem get_freq (h : Insertion n v f f') (hw : f.numbers.Widens σ k n f'.numbers) :
    (∀ u, (Liveness.freqBlock f'.numbers f'.body {}).get (σ u) =
      (Liveness.freqBlock f.numbers f.body {}).get u) ∧
      (Liveness.freqBlock f'.numbers f'.body {}).get k = 0 := by
  have hempty (u : Nat) : Frequency.get {} u = 0 := by simp [Frequency.get]
  have hids : (blockReads f'.body).filterMap f'.numbers.find? =
      ((blockReads f.body).filterMap f.numbers.find?).map σ := by
    rw [h.body.blockReads_eq h.constant, List.map_filterMap]
    refine List.filterMap_congr fun z hz => hw.old z ?_
    rintro rfl
    exact h.avoids.1 hz
  constructor
  · intro u
    rw [Liveness.get_freqBlock, Liveness.get_freqBlock, hids, hempty, hempty,
      List.count_map_of_injective _ _ hw.mono.injective]
  · have hnone : k ∉ ((blockReads f.body).filterMap f.numbers.find?).map σ := by
      intro hk
      obtain ⟨u, _, hu⟩ := List.mem_map.1 hk
      exact hw.apart u hu
    rw [Liveness.get_freqBlock, hids, hempty, List.count_eq_zero.2 hnone]
    rfl

theorem isNode_iff (h : Insertion n v f f') (hf : f.Scoped)
    (hw : f.numbers.Widens σ k n f'.numbers) (u : Nat) :
    Conflicts.IsNode f'.numbers f'.body f'.seed (σ u) ↔
      Conflicts.IsNode f.numbers f.body f.seed u := by
  rw [Func.isNode_iff_named hf, Func.isNode_iff_named (h.toScoped hf)]
  constructor
  · rintro ⟨z, hz⟩
    have hne : z ≠ n := by
      rintro rfl
      exact hw.apart u (Option.some.inj (hz.symm.trans hw.new))
    rw [hw.old z hne, Option.map_eq_some_iff] at hz
    obtain ⟨w, hw', heq⟩ := hz
    exact ⟨z, hw.mono.injective heq ▸ hw'⟩
  · rintro ⟨z, hz⟩
    have hne : z ≠ n := by
      rintro rfl
      exact h.not_mem_bindings (Func.mem_bindings_of_find? hz)
    exact ⟨z, by rw [hw.old z hne, hz, Option.map_some]⟩

/-- Both functions are coloured alike, and no register or slot goes to the new number. -/
theorem colorings (h : Insertion n v f f') (hf : f.Scoped)
    (hw : f.numbers.Widens σ k n f'.numbers) {c c' : Conflicts}
    (hc : c.Shows f.numbers (Conflicts.IsNode f.numbers f.body f.seed)
      (Conflicts.LiveTogether f.numbers f.body f.seed))
    (hc' : c'.Shows f'.numbers (Conflicts.IsNode f'.numbers f'.body f'.seed)
      (Conflicts.LiveTogether f'.numbers f'.body f'.seed))
    (hfreq : ∀ u, c'.freq.get (σ u) = c.freq.get u) (hzero : c'.freq.get k = 0) (float : Bool)
    {C : Type} [DecidableEq C] {pool : List C} (hpool : pool.Nodup) :
    ∃ a a', (c.graph float).coloring c.freq pool = .ok a ∧
      (c'.graph float).coloring c'.freq pool = .ok a' ∧ ∀ (ofColor : C → Location) (l : Location),
        (∀ u, (σ u, l) ∈ a'.locations ofColor ↔ (u, l) ∈ a.locations ofColor) ∧
        (l ≠ .none → ∀ u, (u, l) ∈ a'.locations ofColor → ∃ w, u = σ w) := by
  have hclass (u : Nat) : f'.numbers.isFloat (σ u) = f.numbers.isFloat u := by
    rw [Variables.isFloat, Variables.isFloat, hw.ty_eq]
  have hhas (u : Nat) : (c'.graph float).has (σ u) = (c.graph float).has u := by
    rw [Bool.eq_iff_iff, hc.has_iff, hc'.has_iff, h.isNode_iff hf hw, hclass]
  have hread (u : Nat) (hu : (c'.graph float).has u = true) (hne : c'.freq.get u ≠ 0) :
      ∃ w, u = σ w := by
    obtain ⟨z, hz⟩ := (Func.isNode_iff_named (h.toScoped hf)).1 ((hc'.has_iff float u).1 hu).1
    have hzn : z ≠ n := by
      rintro rfl
      rw [Option.some.inj (hz.symm.trans hw.new)] at hne
      exact hne hzero
    rw [hw.old z hzn, Option.map_eq_some_iff] at hz
    obtain ⟨w, _, rfl⟩ := hz
    exact ⟨w, rfl⟩
  have hadj (u w : Nat) : (c'.graph float).Adj (σ u) (σ w) ↔ (c.graph float).Adj u w := by
    rw [hc.adj_iff, hc'.adj_iff, h.liveTogether_iff hw, hclass, hclass]
  obtain ⟨a, a', ha, ha', hcolors, hspilled, hdead, hdead'⟩ := Graph.coloring_renumbered hw.mono
    (hc.valid float) (hc'.valid float) hfreq hread (fun u _ => hhas u) hadj hpool
  refine ⟨a, a', ha, ha', fun ofColor l => ⟨fun u => ?_, fun hl u hu => ?_⟩⟩
  · rw [Coloring.mem_locations, Coloring.mem_locations, hcolors, hspilled, hdead, hdead']
    simp only [Coloring.mem_renumberAll hw.mono, List.mem_map_of_injective hw.mono.injective,
      List.mem_filter, Graph.mem_present, hhas, hfreq]
  · rw [Coloring.mem_locations, hcolors, hspilled] at hu
    rcases hu with ⟨x, hx, _⟩ | ⟨hu, _⟩ | ⟨_, hnone⟩
    · obtain ⟨e, _, he⟩ := List.mem_map.1 hx
      exact ⟨e.1, (congrArg Prod.fst he).symm⟩
    · obtain ⟨w, _, hw⟩ := List.mem_map.1 hu
      exact ⟨w, hw.symm⟩
    · exact absurd hnone hl

theorem located {c : Conflicts} {vars : Variables} {pools : Pools} {nodes : Nat → Prop}
    {edges : Nat → Nat → Prop} (hc : c.Shows vars nodes edges) (hgeneral : pools.general.Nodup)
    (hfloat : pools.float.Nodup) {a : Coloring Reg} {b : Coloring XReg}
    (ha : (c.graph false).coloring c.freq pools.general = .ok a)
    (hb : (c.graph true).coloring c.freq pools.float = .ok b) :
    c.Located vars pools nodes edges (a.locations .reg ++ b.locations .xreg) := by
  obtain ⟨_, ha', hfits⟩ := Graph.coloring_ok (hc.valid false) c.freq hgeneral
  obtain ⟨_, hb', hfits'⟩ := Graph.coloring_ok (hc.valid true) c.freq hfloat
  cases ha.symm.trans ha'
  cases hb.symm.trans hb'
  exact Conflicts.located_locations hc hfits hfits'

theorem assignments (h : Insertion n v f f') (hf : f.Scoped) {pools : Pools}
    (hgeneral : pools.general.Nodup) (hfloat : pools.float.Nodup) :
    ∃ asg asg', f.assignment pools = .ok asg ∧ f'.assignment pools = .ok asg' ∧
      asg'.find? n = some .none ∧ (∀ z, z ≠ n → asg'.find? z = asg.find? z) ∧
      Codegen.savedRegs asg' = Codegen.savedRegs asg := by
  have hf' := h.toScoped hf
  obtain ⟨σ, k, hw⟩ := h.widens hf
  obtain ⟨c, hblock, hc, hcfreq⟩ := Conflicts.ofBlock_ok (Func.numbered_body hf) f.seed
  obtain ⟨c', hblock', hc', hcfreq'⟩ := Conflicts.ofBlock_ok (Func.numbered_body hf') f'.seed
  have hfreq (u : Nat) : c'.freq.get (σ u) = c.freq.get u := by
    rw [hcfreq, hcfreq', Frequency.get_notes, Frequency.get_notes, (h.get_freq hw).1]
  have hzero : c'.freq.get k = 0 := by
    rw [hcfreq', Frequency.get_notes, (h.get_freq hw).2]
  obtain ⟨a, a', ha, ha', hlocsA⟩ := h.colorings hf hw hc hc' hfreq hzero false hgeneral
  obtain ⟨b, b', hb, hb', hlocsB⟩ := h.colorings hf hw hc hc' hfreq hzero true hfloat
  have hlocs := located hc hgeneral hfloat ha hb
  have hlocs' := located hc' hgeneral hfloat ha' hb'
  have hfind {z : String} {l : Location} := Func.find?_locations hf hlocs.nodup (z := z) (l := l)
    fun e he => Func.named_of_isNode ((hlocs.nodes_iff e.1).2 ⟨e.2, he⟩)
  have hfind' {z : String} {l : Location} :=
    Func.find?_locations hf' hlocs'.nodup (z := z) (l := l)
      fun e he => Func.named_of_isNode ((hlocs'.nodes_iff e.1).2 ⟨e.2, he⟩)
  have hmem (u : Nat) (l : Location) : (σ u, l) ∈ a'.locations .reg ++ b'.locations .xreg ↔
      (u, l) ∈ a.locations .reg ++ b.locations .xreg := by
    rw [List.mem_append, List.mem_append, (hlocsA .reg l).1, (hlocsB .xreg l).1]
  refine ⟨_, _, (Func.assignment_eq hf hblock pools).trans (Conflicts.assign_eq ha hb),
    (Func.assignment_eq hf' hblock' pools).trans (Conflicts.assign_eq ha' hb'), ?_, ?_, ?_⟩
  · have hnode := (Func.isNode_iff_named hf').2 ⟨n, hw.new⟩
    exact hfind'.2 ⟨k, hw.new, (hlocs'.dead_iff k).2 ⟨hnode, hzero⟩⟩
  · intro z hz
    refine Option.ext fun l => ?_
    rw [hfind, hfind', hw.old z hz]
    constructor
    · rintro ⟨_, hmap, hul⟩
      obtain ⟨u, hu, rfl⟩ := Option.map_eq_some_iff.1 hmap
      exact ⟨u, hu, (hmem u l).1 hul⟩
    · rintro ⟨u, hu, hul⟩
      exact ⟨σ u, by rw [hu, Option.map_some], (hmem u l).2 hul⟩
  · refine List.filter_congr fun r _ => ?_
    rw [Bool.eq_iff_iff]
    simp only [List.any_map, List.any_eq_true, Function.comp_apply, decide_eq_true_iff, Prod.exists]
    constructor
    · rintro ⟨u, _, hu, rfl⟩
      obtain ⟨w, rfl⟩ : ∃ w, u = σ w := by
        rcases List.mem_append.1 hu with hu | hu
        · exact (hlocsA .reg _).2 (by simp) u hu
        · exact (hlocsB .xreg _).2 (by simp) u hu
      exact ⟨w, _, (hmem w _).1 hu, rfl⟩
    · rintro ⟨u, _, hu, rfl⟩
      exact ⟨σ u, _, (hmem u _).2 hu, rfl⟩

end Func.Insertion

namespace Codegen

variable {func : String} {asg asg' : Assignment}

theorem location_congr {name : String} (h : asg'.find? name = asg.find? name) :
    location asg' name = location asg name := by
  rw [location, location, h]

mutual

/-- Code depends on the locations of the names that are bound. -/
theorem statement_congr (func : String) : ∀ (x : Expr) (scope : Scope) (dst : Option Operand),
    (∀ z ∈ x.bindings.map Prod.fst, asg'.find? z = asg.find? z) →
    statement func asg' x scope dst = statement func asg x scope dst
  | .atom x, scope, dst, h => by rw [statement, statement]
  | .bind name init, scope, dst, h => by
    simp only [Expr.bindings, List.map_append, List.map_cons, List.map_nil, List.mem_append,
      List.mem_singleton] at h
    have hinit (dst : Option Operand) := statement_congr func init scope dst fun z hz => h z (Or.inl hz)
    rw [statement, statement, location_congr (h name (Or.inr rfl))]
    simp only [hinit]
  | .unary op x ty, scope, none, h => by rw [statement, statement]
  | .unary op x ty, scope, some dst, h => by rw [statement, statement]
  | .binary op l r ty, scope, none, h => by rw [statement, statement]
  | .binary op l r ty, scope, some dst, h => by rw [statement, statement]
  | .branch cond onTrue none, scope, none, h => by rw [statement, statement]
  | .branch cond onTrue none, scope, some dst, h => by
    rw [Expr.bindings] at h
    rw [statement, statement, block_congr func onTrue scope (some dst) h]
  | .branch cond onTrue (some b), scope, none, h => by rw [statement, statement]
  | .branch cond onTrue (some b), scope, some dst, h => by
    simp only [Expr.bindings, List.map_append, List.mem_append] at h
    have hfirst := block_congr func onTrue scope (some dst) fun z hz => h z (Or.inl hz)
    have hsecond := block_congr func b scope (some dst) fun z hz => h z (Or.inr hz)
    simp only [statement, hfirst, hsecond]
  | .missing, scope, dst, h => by rw [statement, statement]

theorem block_congr (func : String) : ∀ (xs : List Expr) (scope : Scope) (dst : Option Operand),
    (∀ z ∈ (blockBindings xs).map Prod.fst, asg'.find? z = asg.find? z) →
    block func asg' xs scope dst = block func asg xs scope dst
  | [], scope, dst, h => by rw [block, block]
  | [x], scope, dst, h => by
    simp only [blockBindings, List.append_nil] at h
    rw [block, block, statement_congr func x scope dst h]
  | x :: y :: xs, scope, dst, h => by
    rw [blockBindings, List.map_append] at h
    have hrest (scope : Scope) := block_congr func (y :: xs) scope dst
      fun z hz => h z (List.mem_append_right _ hz)
    rw [block, block, statement_congr func x scope none fun z hz => h z (List.mem_append_left _ hz)]
    simp only [hrest]

end

/-- A constant whose value is not wanted has no code. -/
theorem statement_constant {v : Expr} (hv : v.isConstant = true) (scope : Scope) :
    statement func asg v scope none = pure ([], scope) := by
  cases v with
  | atom x =>
    have hx : x.isVar = false := by simpa [Expr.isConstant] using hv
    rw [statement, Scope.operand, if_neg (by simp [hx])]
    split <;> rfl
  | unary op x ty => rw [statement]
  | binary op l r ty => rw [statement]
  | bind name init => cases hv
  | branch cond onTrue onFalse => cases hv
  | missing => cases hv

theorem statement_dead {n : String} {v : Expr} (hv : v.isConstant = true)
    (hn : asg.find? n = some .none) (scope : Scope) :
    statement func asg (.bind n v) scope none = pure ([], scope) := by
  rw [statement, location, hn]
  exact statement_constant hv scope

theorem block_dead {n : String} {v : Expr} (hv : v.isConstant = true)
    (hn : asg.find? n = some .none) (x : Expr) (xs : List Expr) (scope : Scope)
    (dst : Option Operand) :
    block func asg (.bind n v :: x :: xs) scope dst = block func asg (x :: xs) scope dst := by
  rw [block, statement_dead hv hn, pure_bind]
  simp only [List.nil_append, bind_pure]

end Codegen

section Code

open Codegen

variable {n func : String} {v : Expr} {asg asg' : Assignment}

theorem Expr.Avoids.find?_eq {x : Expr} (hx : x.Avoids n)
    (h : ∀ z, z ≠ n → asg'.find? z = asg.find? z) :
    ∀ z ∈ x.bindings.map Prod.fst, asg'.find? z = asg.find? z :=
  fun z hz => h z fun hzn => hx.2 (hzn ▸ hz)

theorem BlockAvoids.find?_eq {xs : List Expr} (hxs : BlockAvoids n xs)
    (h : ∀ z, z ≠ n → asg'.find? z = asg.find? z) :
    ∀ z ∈ (blockBindings xs).map Prod.fst, asg'.find? z = asg.find? z :=
  fun z hz => h z fun hzn => hxs.2 (hzn ▸ hz)

mutual

theorem Expr.Insertion.statement_eq (hv : v.isConstant = true) (hnone : asg'.find? n = some .none)
    (hsame : ∀ z, z ≠ n → asg'.find? z = asg.find? z) : ∀ {x x' : Expr} (scope : Scope)
      (dst : Option Operand), Expr.Insertion (.bind n v) x x' → x.Avoids n →
        statement func asg' x' scope dst = statement func asg x scope dst
  | _, _, scope, dst, @Expr.Insertion.bind _ name _ _ hi, hn => by
    obtain ⟨hinit, hname⟩ := Expr.avoids_bind.1 hn
    have hinit' (dst : Option Operand) := hi.statement_eq hv hnone hsame scope dst hinit
    rw [statement, statement, location_congr (hsame name hname.symm)]
    simp only [hinit']
  | _, _, scope, none, .onTrue none hi, hn => by rw [statement, statement]
  | _, _, scope, none, .onTrue (some b) hi, hn => by rw [statement, statement]
  | _, _, scope, some dst, .onTrue none hi, hn => by
    obtain ⟨_, htrue⟩ := Expr.avoids_branch_none.1 hn
    rw [statement, statement, hi.block_eq hv hnone hsame scope (some dst) htrue]
  | _, _, scope, some dst, .onTrue (some b) hi, hn => by
    obtain ⟨_, htrue, hfalse⟩ := Expr.avoids_branch_some.1 hn
    have hfirst := hi.block_eq hv hnone hsame scope (some dst) htrue
    have hsecond := block_congr func b scope (some dst) (hfalse.find?_eq hsame)
    simp only [statement, hfirst, hsecond]
  | _, _, scope, none, .onFalse hi, hn => by rw [statement, statement]
  | _, _, scope, some dst, @Expr.Insertion.onFalse _ _ onTrue _ _ hi, hn => by
    obtain ⟨_, htrue, hfalse⟩ := Expr.avoids_branch_some.1 hn
    have hfirst := block_congr func onTrue scope (some dst) (htrue.find?_eq hsame)
    have hsecond := hi.block_eq hv hnone hsame scope (some dst) hfalse
    simp only [statement, hfirst, hsecond]

theorem BlockInsertion.block_eq (hv : v.isConstant = true) (hnone : asg'.find? n = some .none)
    (hsame : ∀ z, z ≠ n → asg'.find? z = asg.find? z) : ∀ {b b' : List Expr} (scope : Scope)
      (dst : Option Operand), BlockInsertion (.bind n v) b b' → BlockAvoids n b →
        block func asg' b' scope dst = block func asg b scope dst
  | _, _, scope, dst, @BlockInsertion.here _ x xs, hn => by
    rw [block_dead hv hnone]
    exact block_congr func (x :: xs) scope dst (hn.find?_eq hsame)
  | _, _, scope, dst, .inside [] hi, hn => by
    rw [block, block, hi.statement_eq hv hnone hsame scope dst (blockAvoids_cons.1 hn).1]
  | _, _, scope, dst, .inside (y :: ys) hi, hn => by
    obtain ⟨hx, hxs⟩ := blockAvoids_cons.1 hn
    have hrest (scope : Scope) := block_congr func (y :: ys) scope dst (hxs.find?_eq hsame)
    rw [block, block, hi.statement_eq hv hnone hsame scope none hx]
    simp only [hrest]
  | _, _, scope, dst, @BlockInsertion.behind _ x xs xs' hi, hn => by
    obtain ⟨hx, hxs⟩ := blockAvoids_cons.1 hn
    have hrest (scope : Scope) := hi.block_eq hv hnone hsame scope dst hxs
    obtain ⟨y, ys, rfl⟩ := List.exists_cons_of_ne_nil hi.ne_nil.1
    obtain ⟨y', ys', rfl⟩ := List.exists_cons_of_ne_nil hi.ne_nil.2
    rw [block, block, statement_congr func x scope none (hx.find?_eq hsame)]
    simp only [hrest]

end

theorem Codegen.loadParams_congr {ps : List Param}
    (h : ∀ p ∈ ps, asg'.find? p.name = asg.find? p.name) (i : Nat) (scope : Scope) :
    loadParams asg' i ps scope = loadParams asg i ps scope := by
  induction ps generalizing i scope with
  | nil => rfl
  | cons p ps ih =>
    have hplace : paramPlace asg' i p.name = paramPlace asg i p.name := by
      rw [paramPlace, paramPlace, h p List.mem_cons_self]
    have hrest (i : Nat) (scope : Scope) := ih (fun q hq => h q (List.mem_cons_of_mem p hq)) i scope
    rw [loadParams, loadParams, hplace]
    simp only [hrest]

variable {f f' : Func}

theorem Func.Insertion.result_eq (h : Insertion n v f f') : f'.result = f.result := by
  have hresult : f'.result? = f.result? := h.body.blockTy?_eq
  rw [Func.result, Func.result, hresult]

theorem Func.Insertion.code_eq (h : Insertion n v f f') (hnone : asg'.find? n = some .none)
    (hsame : ∀ z, z ≠ n → asg'.find? z = asg.find? z) (hsaved : savedRegs asg' = savedRegs asg) :
    f'.code asg' = f.code asg := by
  have hload := loadParams_congr (fun p hp => hsame p.name (h.ne_param hp)) 0 []
  have hblock (scope : Scope) (dst : Option Operand) :
      block f.name asg' f'.body scope dst = block f.name asg f.body scope dst :=
    h.body.block_eq h.constant hnone hsame scope dst h.avoids
  have hbody : f'.bodyCode asg' = f.bodyCode asg := by
    rw [Func.bodyCode, Func.bodyCode, h.name_eq, h.params_eq, h.result_eq, hload]
    simp only [hblock]
  rw [Func.code, Func.code, h.name_eq, hbody, hsaved]

end Code

namespace Printer

variable {n : String} {v : Expr} {depth : Nat}

theorem blockText_of_indent_error {e : PrintError} (h : indent depth = .error e) (x : Expr)
    (xs : List Expr) : blockText depth (x :: xs) = .error e := by
  cases x with
  | bind name init =>
    rw [blockText, h]
    rfl
  | _ =>
    rw [blockText_cons rfl, h]
    rfl

theorem exists_text_of_isConstant (hv : v.isConstant = true) (depth : Nat) :
    ∃ text, exprText depth v = .ok text := by
  cases v with
  | bind name init => cases hv
  | branch cond onTrue onFalse => cases hv
  | missing => cases hv
  | _ => exact ⟨_, rfl⟩

/-- The new line can be printed if any other line at its depth can. -/
theorem newLine_related (hv : v.isConstant = true) (x : Expr) (xs : List Expr) :
    Except.Related Printable (blockText depth (x :: xs))
      (blockText depth (.bind n v :: x :: xs)) := by
  cases hindent : indent depth with
  | error e =>
    rw [blockText_of_indent_error hindent, blockText_of_indent_error hindent]
    exact .error e e
  | ok tabs =>
    obtain ⟨ty, hty⟩ := Option.isSome_iff_exists.1
      (v.ty?_isSome_of_inScope [] (Expr.inScope_of_isConstant hv []))
    obtain ⟨text, htext⟩ := exists_text_of_isConstant hv depth
    rw [blockText.eq_def depth (.bind n v :: x :: xs)]
    simp only [hindent, hty, htext, shownTy, bind, Except.bind]
    cases blockText depth (x :: xs) with
    | ok rest => exact .ok trivial
    | error e => exact .error e e

theorem sameLine_related (x : Expr) {xs xs' : List Expr}
    (hrest : Except.Related Printable (blockText depth xs) (blockText depth xs')) :
    Except.Related Printable (blockText depth (x :: xs)) (blockText depth (x :: xs')) := by
  cases x with
  | bind name init => exact bindLine_related name name rfl (printable_refl _) hrest
  | _ => exact line_related rfl rfl (printable_refl _) hrest

end Printer

section Text

open Printer

variable {n : String} {v : Expr}

mutual

/-- On its own and as a line in front of others. -/
theorem Expr.Insertion.text_related (hv : v.isConstant = true) (depth : Nat) (xs : List Expr) :
    ∀ {x x' : Expr}, Expr.Insertion (.bind n v) x x' →
      Except.Related Printable (exprText depth x) (exprText depth x') ∧
        Except.Related Printable (blockText depth (x :: xs)) (blockText depth (x' :: xs))
  | _, _, .bind hi => by
    have hinit := (hi.text_related hv depth xs).1
    exact ⟨.error _ _, bindLine_related _ _ hi.ty?_eq hinit (printable_refl _)⟩
  | _, _, @Expr.Insertion.onTrue _ cond _ _ none hi => by
    have hline := branch_related cond cond (hi.blockText_related hv (depth + 1))
    exact ⟨hline, line_related rfl rfl hline (printable_refl _)⟩
  | _, _, @Expr.Insertion.onTrue _ cond _ _ (some b) hi => by
    have hline := branchElse_related cond cond (hi.blockText_related hv (depth + 1))
      (printable_refl (blockText (depth + 1) b))
    exact ⟨hline, line_related rfl rfl hline (printable_refl _)⟩
  | _, _, @Expr.Insertion.onFalse _ cond onTrue _ _ hi => by
    have hline := branchElse_related cond cond (printable_refl (blockText (depth + 1) onTrue))
      (hi.blockText_related hv (depth + 1))
    exact ⟨hline, line_related rfl rfl hline (printable_refl _)⟩

theorem BlockInsertion.blockText_related (hv : v.isConstant = true) (depth : Nat) :
    ∀ {b b' : List Expr}, BlockInsertion (.bind n v) b b' →
      Except.Related Printable (blockText depth b) (blockText depth b')
  | _, _, .here => newLine_related hv _ _
  | _, _, .inside xs hi => (hi.text_related hv depth xs).2
  | _, _, .behind hi => sameLine_related _ (hi.blockText_related hv depth)

end

end Text

namespace Func

variable {n : String} {v : Expr} {f f' : Func}

theorem Insertion.render_related (h : Insertion n v f f') :
    Except.Related (fun _ _ => True) f.render f'.render := by
  have hresult : f'.result? = f.result? := h.body.blockTy?_eq
  rw [render, render, hresult]
  refine (Except.Related.refl _).bind ?_
  rintro ty _ rfl
  have hbody := h.body.blockText_related h.constant 1
  refine (Printer.within_related hbody _).bind fun _ _ _ => ?_
  exact .ok trivial

/-- A binding of a new name to a constant may be put in front of any statement of a function, at any
depth. The function is compiled exactly if it was, and to the same code. The new name has no
location, and every other name has the one it had. -/
theorem compile_dead_binding (f f' : Func) (hf : f.Scoped) (n : String) (v : Expr)
    (h : f.Insertion n v f') (opts : Options) :
    ((∃ u', f'.compile opts = .ok u') ↔ ∃ u, f.compile opts = .ok u) ∧
      ∀ u u', f.compile opts = .ok u → f'.compile opts = .ok u' →
        u'.code = u.code ∧ u'.assignment.find? n = some .none ∧
          ∀ z, z ≠ n → u'.assignment.find? z = u.assignment.find? z := by
  have hprint := h.render_related.exists_iff
  -- pools that are accepted have no register twice
  have hboth (hcheck : opts.pools.check = .ok ()) :=
    have haccepted := Pools.accepted_of_check hcheck
    h.assignments hf haccepted.general haccepted.float
  refine ⟨⟨?_, ?_⟩, ?_⟩
  · rintro ⟨u', hu'⟩
    obtain ⟨_, hcheck, hrender, hasg', hcode⟩ := compile_eq_ok.1 hu'
    obtain ⟨asg, _, hasg, hasg₁, hnone, hsame, hsaved⟩ := hboth hcheck
    cases hasg'.symm.trans hasg₁
    rw [h.code_eq hnone hsame hsaved] at hcode
    exact ⟨⟨f, asg, u'.code⟩,
      compile_eq_ok.2 ⟨rfl, hcheck, fun hdump => hprint.1 (hrender hdump), hasg, hcode⟩⟩
  · rintro ⟨u, hu⟩
    obtain ⟨_, hcheck, hrender, hasg, hcode⟩ := compile_eq_ok.1 hu
    obtain ⟨_, asg', hasg₁, hasg', hnone, hsame, hsaved⟩ := hboth hcheck
    cases hasg.symm.trans hasg₁
    rw [← h.code_eq hnone hsame hsaved] at hcode
    exact ⟨⟨f', asg', u.code⟩,
      compile_eq_ok.2 ⟨rfl, hcheck, fun hdump => hprint.2 (hrender hdump), hasg', hcode⟩⟩
  · intro u u' hu hu'
    obtain ⟨_, hcheck, hasg, hcode⟩ := of_compile hu
    obtain ⟨_, _, hasg', hcode'⟩ := of_compile hu'
    obtain ⟨_, _, hasg₁, hasg₁', hnone, hsame, hsaved⟩ := hboth hcheck
    cases hasg.symm.trans hasg₁
    cases hasg'.symm.trans hasg₁'
    rw [h.code_eq hnone hsame hsaved] at hcode'
    exact ⟨Except.ok.inj (hcode'.symm.trans hcode), hnone, hsame⟩

/-- A dead binding inside a branch of `scaledDistance`, which then has its names under later
numbers. -/
def scaledDistancePadded : Func where
  name := "scaled_distance"
  params := [⟨"x", .int⟩, ⟨"y", .int⟩]
  body := [
    .bind "less" (.binary .less (.var "x" .int) (.var "y" .int) .int),
    .bind "d" (.branch (.var "less" .bool)
      [.bind "spare" (.binary .times (.int 6) (.int 7) .int),
        .binary .minus (.var "y" .int) (.var "x" .int) .int]
      (some [.binary .minus (.var "x" .int) (.var "y" .int) .int])),
    .binary .times (.var "d" .int) (.var "x" .int) .int]

theorem compile_dead_binding_scaledDistance :
    ∃ u u', scaledDistance.compile { pools := ⟨[.rbx], []⟩ } = .ok u ∧
      scaledDistancePadded.compile { pools := ⟨[.rbx], []⟩ } = .ok u' ∧ u'.code = u.code ∧
      u'.assignment.find? "spare" = some .none ∧ u'.assignment.find? "x" = some (.reg .rbx) ∧
      u'.assignment.find? "d" = u.assignment.find? "d" := by
  have hinsertion : scaledDistance.Insertion "spare" (.binary .times (.int 6) (.int 7) .int)
      scaledDistancePadded := by
    refine ⟨rfl, rfl, ?_, rfl, by decide⟩
    exact .behind (.inside _ (.bind (.onTrue _ .here)))
  obtain ⟨hiff, hsame⟩ := compile_dead_binding scaledDistance scaledDistancePadded (by decide)
    "spare" _ hinsertion { pools := ⟨[.rbx], []⟩ }
  have hcompiled : (scaledDistance.compile { pools := ⟨[.rbx], []⟩ }).toOption.map
      (fun u => u.assignment.find? "x") = some (some (.reg .rbx)) := by
    decide +kernel
  obtain ⟨u, hu, hx⟩ := Option.map_eq_some_iff.1 hcompiled
  replace hu := Except.eq_ok_of_toOption hu
  obtain ⟨u', hu'⟩ := hiff.2 ⟨u, hu⟩
  obtain ⟨hcode, hnone, hold⟩ := hsame u u' hu hu'
  exact ⟨u, u', hu, hu', hcode, hnone, (hold "x" (by decide)).trans hx, hold "d" (by decide)⟩

end Func

end ExprBackend
