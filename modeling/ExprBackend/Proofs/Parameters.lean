import ExprBackend.Proofs.Simulation

/-!
# Parameters

A function starts by loading its parameters: those that were given a register are moved there from
the words in which the caller passed them, the others stay where they are. All parameters that are
read are live at the start, so that no two of them share a register.
-/

namespace ExprBackend.Codegen

open Machine Liveness

variable {f : Func} {asg : Assignment} {pools : Pools} {i j : Nat} {p q : Param} {o o' : Operand}
  {z : String} {base : Int64}

theorem paramPlace_cases (h : paramPlace asg i z = .ok o) :
    (∃ r, asg.find? z = some (.reg r) ∧ o = .reg r) ∨
      (∃ r, asg.find? z = some (.xreg r) ∧ o = .xreg r) ∨ o = .mem (argumentSlot i) := by
  rw [paramPlace] at h
  split at h
  next r hfind => exact Or.inl ⟨r, hfind, (Except.ok.inj h).symm⟩
  next r hfind => exact Or.inr (Or.inl ⟨r, hfind, (Except.ok.inj h).symm⟩)
  next => cases h
  next => exact Or.inr (Or.inr (Except.ok.inj h).symm)

theorem paramPlace_held (h : paramPlace asg i z = .ok o) {slots args : Nat} (hi : i < args) :
    Held asg slots args z o := by
  rcases paramPlace_cases h with ⟨r, hfind, rfl⟩ | ⟨r, hfind, rfl⟩ | rfl
  · exact .reg hfind
  · exact .xreg hfind
  · exact .argument hi

theorem mem_params (hp : f.params[i]? = some p) : p ∈ f.params := List.mem_of_getElem? hp

theorem lt_params (hp : f.params[i]? = some p) : i < f.params.length :=
  (List.getElem?_eq_some_iff.1 hp).1

theorem nodup_params (hf : f.LoaderForm) : (f.params.map Param.name).Nodup := by
  have h := hf.nodup
  rw [Func.bindings, List.map_append] at h
  have hparams := h.of_append_left
  rwa [Func.paramTyping, List.map_map] at hparams

theorem param_inj (hf : f.LoaderForm) (hp : f.params[i]? = some p) (hq : f.params[j]? = some q)
    (h : p.name = q.name) : i = j := by
  have hi : i < (f.params.map Param.name).length := by
    rw [List.length_map]
    exact lt_params hp
  refine (List.getElem?_inj hi (nodup_params hf)).1 ?_
  rw [List.getElem?_map, List.getElem?_map, hp, hq, Option.map_some, Option.map_some, h]

/-- Parameters are live to the end of the function. -/
theorem live_param (hf : f.LoaderForm) (hp : p ∈ f.params) :
    f.numbers.Live (BitSet.ofList f.seed) p.name := by
  have hmem : p.name ∈ f.bindings.map Prod.fst :=
    List.mem_map.2 ⟨_, Func.mem_bindings_param hp, rfl⟩
  obtain ⟨v, hv⟩ := Option.isSome_iff_exists.1 (hf.toScoped.find?_isSome hmem)
  refine ⟨v, hv, ?_⟩
  rw [BitSet.contains_ofList, decide_eq_true_iff]
  exact List.mem_filterMap.2 ⟨p, hp, hv⟩

theorem mem_paramTyping (hp : p ∈ f.params) : p.name ∈ f.paramTyping.map Prod.fst :=
  List.mem_map.2 ⟨(p.name, p.ty), List.mem_map.2 ⟨p, hp, rfl⟩, rfl⟩

theorem find?_params_apart (hf : f.LoaderForm) (hfits : asg.Fits f pools) (hp : p ∈ f.params)
    (hq : q ∈ f.params) (hne : p.name ≠ q.name) (l : Location) (hl : l.isRegister = true)
    (hfind : asg.find? p.name = some l) : asg.find? q.name ≠ some l := by
  have hpart := hf.blockPart
  have hlive (r : Param) (hr : r ∈ f.params) :
      f.numbers.Live (liveBlock f.numbers f.body (BitSet.ofList f.seed)) r.name :=
    (hpart.live_iff hf (mem_paramTyping hr)).2 (Or.inr (live_param hf hr))
  cases hbody : f.body with
  | nil =>
    have hdead := (hfits.dead_iff p.name
      (List.mem_map.2 ⟨_, Func.mem_bindings_param hp, rfl⟩)).2 (by simp [hbody, blockReads])
    obtain rfl := Option.some.inj (hdead.symm.trans hfind)
    cases hl
  | cons x xs =>
    -- the point before the first statement has both of them
    refine hfits.apart ⟨x, liveBlock f.numbers f.body (BitSet.ofList f.seed)⟩ ?_ _ _ hne
      (hlive p hp) (hlive q hq) l hl hfind
    rw [Func.points, Conflicts.pointsOf, hbody, blockPoints, liveBlock]
    simp

/-- Different parameters are held in different cells. -/
theorem params_apart (hlayout : Layout f asg pools base) (hp : f.params[i]? = some p)
    (hq : f.params[j]? = some q) (hne : i ≠ j) (ho : paramPlace asg i p.name = .ok o)
    (ho' : paramPlace asg j q.name = .ok o') {c d : Cell} (hc : o.cell? base = some c)
    (hd : o'.cell? base = some d) : c ≠ d := by
  rintro rfl
  obtain ⟨hx, hmem⟩ := cell?_kind hc hd
  have hapart := find?_params_apart hlayout.loaded hlayout.fits (mem_params hp) (mem_params hq)
    fun h => hne (param_inj hlayout.loaded hp hq h)
  rcases paramPlace_cases ho with ⟨r, hfind, rfl⟩ | ⟨r, hfind, rfl⟩ | rfl
  · rcases paramPlace_cases ho' with ⟨r', hfind', rfl⟩ | ⟨r', _, rfl⟩ | rfl
    · exact hapart _ rfl hfind (cell?_reg_inj hc hd ▸ hfind')
    · cases hx
    · cases hmem
  · rcases paramPlace_cases ho' with ⟨r', _, rfl⟩ | ⟨r', hfind', rfl⟩ | rfl
    · cases hx
    · exact hapart _ rfl hfind (cell?_xreg_inj hc hd ▸ hfind')
    · cases hmem
  · rcases paramPlace_cases ho' with ⟨r', _, rfl⟩ | ⟨r', _, rfl⟩ | rfl
    · cases hmem
    · cases hmem
    · have hi := inFrame_argument hlayout.room (lt_params hp)
      have hj := inFrame_argument hlayout.room (lt_params hq)
      rw [argumentSlot, cell?_slot hlayout.aligned hi] at hc
      rw [argumentSlot, cell?_slot hlayout.aligned hj, ← hc, Option.some.injEq,
        hj.frame_inj hi] at hd
      omega

/-- The first `n` parameters have been loaded. The words that the caller passed are all still
there. -/
structure Loaded (f : Func) (asg : Assignment) (args : List UInt64) (n : Nat) (scope : Scope)
    (m : Machine) : Prop where
  words : ∀ (j : Nat) (w : UInt64), args[j]? = some w → m.cell (.frame m.base (16 + 8 * j)) = w
  held : ∀ (j : Nat) (p : Param) (w : UInt64), j < n → f.params[j]? = some p → args[j]? = some w →
    ∃ o, List.lookup p.name scope = some o ∧ paramPlace asg j p.name = .ok o ∧ m.value? o = some w
  placed : ∀ z o, List.lookup z scope = some o →
    ∃ (j : Nat) (p : Param), f.params[j]? = some p ∧ p.name = z ∧ paramPlace asg j z = .ok o

variable {args : List UInt64} {n : Nat} {scope scope' : Scope} {m : Machine} {code : List Instr}
  {w : UInt64}

theorem loaded_nil (h : ∀ (j : Nat) (w : UInt64), args[j]? = some w →
    m.cell (.frame m.base (16 + 8 * j)) = w) : Loaded f asg args 0 [] m :=
  ⟨h, fun _ _ _ hj => absurd hj (Nat.not_lt_zero _), fun _ _ h => by cases h⟩

theorem Loaded.step (h : Loaded f asg args n scope m) (hlayout : Layout f asg pools m.base)
    (hp : f.params[n]? = some p) (hw : args[n]? = some w) (ho : paramPlace asg n p.name = .ok o)
    (hcode : move o (.mem (argumentSlot n)) = .ok code) :
    ∃ m', executeAll code m = .ok () m' ∧
      (∀ c ∈ Cell.reserved m.base, c ≠ .backup → m'.cell c = m.cell c) ∧
      Loaded f asg args (n + 1) ((p.name, o) :: scope) m' := by
  have hcell {j : Nat} {q : Param} {o : Operand} (hq : f.params[j]? = some q)
      (ho : paramPlace asg j q.name = .ok o) :
      ∃ c, o.cell? m.base = some c ∧ c ∉ Cell.reserved m.base :=
    (paramPlace_held ho (lt_params hq)).cell hlayout.fits hlayout.accepted
      (List.mem_map.2 ⟨_, Func.mem_bindings_param (mem_params hq), rfl⟩) hlayout.aligned
      hlayout.room
  obtain ⟨c, hc, hreserved⟩ := hcell hp ho
  have hback : c ≠ .backup := fun heq => hreserved (Or.inl (by simp [heq, Cell.temporaries]))
  have hframe := inFrame_argument hlayout.room (lt_params hp)
  have hslot : (Operand.mem (argumentSlot n)).cell? m.base = some (.frame m.base (16 + 8 * n)) :=
    cell?_slot hlayout.aligned hframe
  have hvalue : m.value? (.mem (argumentSlot n)) = some w := by
    rw [value?_of_cell? hslot, h.words n w hw]
  obtain ⟨m', hrun, hcw, hsame⟩ := move_leaves hcode hc hback hvalue
  have hkept : ∀ k ∈ Cell.reserved m.base, k ≠ .backup → m'.cell k = m.cell k := by
    intro k hk hne
    refine hsame k ?_
    rintro (rfl | rfl)
    · exact hreserved hk
    · exact hne rfl
  have hbase : m'.base = m.base := by
    rw [Machine.base, Machine.base, hkept .rbp (Or.inr (by simp [Cell.fixed])) (by decide)]
  refine ⟨m', hrun, hkept, ?_, ?_, ?_⟩
  · intro j v hv
    rw [hbase]
    by_cases hj : Cell.frame m.base (16 + 8 * j) = c
    · -- only the word of this parameter is ever a destination, and it gets what it has
      rcases paramPlace_cases ho with ⟨r, _, rfl⟩ | ⟨r, _, rfl⟩ | rfl
      · obtain ⟨k, _, rfl⟩ := Option.map_eq_some_iff.1 hc
        cases hj
      · obtain ⟨k, _, rfl⟩ := Option.map_eq_some_iff.1 hc
        cases hj
      · rw [hj, hcw, ← h.words n w hw, ← h.words j v hv, hj, Option.some.inj (hc.symm.trans hslot)]
    · rw [hsame _ ?_, h.words j v hv]
      rintro (heq | heq)
      · exact hj heq
      · cases heq
  · intro j q v hj hq hv
    rcases Nat.lt_succ_iff_lt_or_eq.1 hj with hlt | rfl
    · obtain ⟨o₁, hlook, hplace, hval⟩ := h.held j q v hlt hq hv
      obtain ⟨d, hd, hd'⟩ := hcell hq hplace
      have hname : q.name ≠ p.name := fun heq =>
        absurd (param_inj hlayout.loaded hq hp heq) (Nat.ne_of_lt hlt)
      have hapart := params_apart hlayout hq hp (Nat.ne_of_lt hlt) hplace ho hd hc
      have hback' : d ≠ .backup := fun heq => hd' (Or.inl (by simp [heq, Cell.temporaries]))
      refine ⟨o₁, ?_, hplace, ?_⟩
      · rw [List.lookup_cons, beq_eq_false_iff_ne.2 hname]
        exact hlook
      · rw [value?_of_cell? (hbase.symm ▸ hd), hsame d (by simp [hapart, hback']),
          ← value?_of_cell? hd, hval]
    · obtain rfl := Option.some.inj (hp.symm.trans hq)
      obtain rfl := Option.some.inj (hw.symm.trans hv)
      refine ⟨o, List.lookup_cons_self, ho, ?_⟩
      rw [value?_of_cell? (hbase.symm ▸ hc), hcw]
  · intro z o₁ hz
    rw [List.lookup_cons] at hz
    by_cases heq : z = p.name
    · subst heq
      rw [beq_self_eq_true] at hz
      obtain rfl := Option.some.inj hz
      exact ⟨n, p, hp, rfl, ho⟩
    · rw [beq_eq_false_iff_ne.2 heq] at hz
      exact h.placed z o₁ hz

theorem loadParams_cons {ps : List Param} :
    loadParams asg n (p :: ps) scope = .ok (code, scope') ↔
      ∃ o first rest, paramPlace asg n p.name = .ok o ∧
        move o (.mem (argumentSlot n)) = .ok first ∧
        loadParams asg (n + 1) ps ((p.name, o) :: scope) = .ok (rest, scope') ∧
        code = first ++ rest := by
  simp only [loadParams, Except.bind_eq_ok, Prod.exists]
  constructor
  · rintro ⟨o, ho, first, hfirst, rest, scope₁, hrest, h⟩
    cases h
    exact ⟨o, first, rest, ho, hfirst, hrest, rfl⟩
  · rintro ⟨o, first, rest, ho, hfirst, hrest, rfl⟩
    exact ⟨o, ho, first, hfirst, rest, scope', hrest, rfl⟩

/-- The code that loads parameters never fails. -/
theorem Loaded.run {ps : List Param} (h : Loaded f asg args n scope m)
    (hlayout : Layout f asg pools m.base) (hlen : args.length = f.params.length)
    (hps : f.params.drop n = ps) (hcode : loadParams asg n ps scope = .ok (code, scope')) :
    ∃ m', executeAll code m = .ok () m' ∧
      (∀ c ∈ Cell.reserved m.base, c ≠ .backup → m'.cell c = m.cell c) ∧
      Loaded f asg args f.params.length scope' m' := by
  induction ps generalizing n scope m code with
  | nil =>
    obtain ⟨rfl, rfl⟩ := Prod.mk.inj (Except.ok.inj hcode)
    refine ⟨m, rfl, fun _ _ _ => rfl, h.words, fun j p w hj hp hw => ?_, h.placed⟩
    exact h.held j p w (Nat.lt_of_lt_of_le hj (List.drop_eq_nil_iff.1 hps)) hp hw
  | cons p ps ih =>
    obtain ⟨o, first, rest, ho, hfirst, hrest, rfl⟩ := loadParams_cons.1 hcode
    have hp : f.params[n]? = some p := by
      rw [← Nat.add_zero n, ← List.getElem?_drop, hps, List.getElem?_cons_zero]
    have hnext : f.params.drop (n + 1) = ps := by
      rw [← List.drop_drop, hps, List.drop_one, List.tail_cons]
    have hn : n < args.length := hlen ▸ lt_params hp
    obtain ⟨m₁, hrun, hkept, hloaded⟩ := h.step hlayout hp (List.getElem?_eq_getElem hn) ho hfirst
    have hbase : m₁.base = m.base := by
      rw [Machine.base, Machine.base, hkept .rbp (Or.inr (by simp [Cell.fixed])) (by decide)]
    obtain ⟨m', hrun', hkept', hloaded'⟩ := ih hloaded (hbase.symm ▸ hlayout) hnext hrest
    refine ⟨m', (executeAll_append hrun).trans hrun', fun c hc hne => ?_, hloaded'⟩
    rw [hkept' c (hbase.symm ▸ hc) hne, hkept c hc hne]

/-- Loading the parameters writes the registers that hold them. An argument that stays in its stack
slot is not moved. -/
theorem straight_loadParams {P : Operand → Prop} (hP : ∀ o ∈ volatile, P o) {ps : List Param}
    (hreg : ∀ p ∈ ps, ∀ r, asg.find? p.name = some (.reg r) → P (.reg r))
    (hxreg : ∀ p ∈ ps, ∀ r, asg.find? p.name = some (.xreg r) → P (.xreg r))
    (h : loadParams asg n ps scope = .ok (code, scope')) : Straight P code := by
  induction ps generalizing n scope code with
  | nil =>
    obtain ⟨rfl, rfl⟩ := Prod.mk.inj (Except.ok.inj h)
    exact straight_nil
  | cons p ps ih =>
    obtain ⟨o, first, rest, ho, hfirst, hrest, rfl⟩ := loadParams_cons.1 h
    refine straight_append.2 ⟨?_, ih (fun q hq => hreg q (List.mem_cons_of_mem p hq))
      (fun q hq => hxreg q (List.mem_cons_of_mem p hq)) hrest⟩
    obtain ⟨r, hfind, rfl⟩ | ⟨r, hfind, rfl⟩ | rfl := paramPlace_cases ho
    · exact straight_move hP (hreg p List.mem_cons_self r hfind) hfirst
    · exact straight_move hP (hxreg p List.mem_cons_self r hfind) hfirst
    · have hself : move (.mem (argumentSlot n)) (.mem (argumentSlot n)) = .ok [] := by
        exact if_pos rfl
      obtain rfl := Except.ok.inj (hself.symm.trans hfirst)
      exact straight_nil

end ExprBackend.Codegen
