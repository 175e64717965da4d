import ExprBackend.Proofs.Parameters
import ExprBackend.Proofs.Stack

/-!
# Calls

The code of a whole function: it is called with its arguments on the stack, and it returns the
value of its body on demand, or it fails if there is no such value.
-/

namespace ExprBackend

open Machine Codegen Liveness

def CallResult.word (r : CallResult) (ty : Ty) : UInt64 :=
  if ty = .float then r.float else r.int.toUInt64

/-- Every name of the function can have a word of the frame, at an offset of 32 bits. -/
def Func.Fitting (f : Func) : Prop := 8 * f.bindings.length + 16 < 2 ^ 31

instance (f : Func) : Decidable f.Fitting := inferInstanceAs (Decidable (_ < _))

namespace Codegen

/-- What is wanted of a body with a value of a type, when `xmm0` holds a word before the call. -/
def resultWant (ty : Ty) (held : UInt64) : Want :=
  if ty = .float then .floatResult held else .result

def resultCell (ty : Ty) : Cell := if ty = .float then .xmm0 else .rax

theorem dest_result (base : Int64) (ty : Ty) (held : UInt64) :
    Dest base (resultWant ty held) (resultPlace ty) (resultCell ty) := by
  by_cases hty : ty = .float
  · simp only [resultWant, resultPlace, resultCell, hty, if_true]
    exact ⟨rfl, fun _ => rfl, (nomatch ·), fun _ => rfl, (nomatch ·)⟩
  · simp only [resultWant, resultPlace, resultCell, hty, if_false]
    exact ⟨rfl, (nomatch ·), fun _ => rfl, (nomatch ·), (nomatch ·)⟩

theorem resultCell_mem_reserved (base : Int64) (ty : Ty) :
    resultCell ty ∈ Cell.reserved base ∧ resultCell ty ≠ .backup := by
  unfold resultCell
  split
  · exact ⟨Or.inr (by simp [Cell.fixed]), by decide⟩
  · exact ⟨Or.inl (by simp [Cell.temporaries]), by decide⟩

theorem frame_ne_resultCell (base : Int64) (offset : Int) (ty : Ty) :
    Cell.frame base offset ≠ resultCell ty := by
  unfold resultCell
  split <;> simp [Cell.frame, Cell.xmm0, Cell.rax]

variable {f : Func} {asg : Assignment} {pools : Pools} {args : List UInt64} {scope : Scope}
  {m : Machine} {ty : Ty}

/-- The body can run once the parameters are loaded. -/
theorem Loaded.ready (h : Loaded f asg args f.params.length scope m)
    (hlayout : Layout f asg pools m.base) (hlen : args.length = f.params.length) (ty : Ty) :
    Ready f asg pools 0 f.paramTyping scope ((f.params.map Param.name).zip args)
      (liveBlock f.numbers f.body (.ofList f.seed)) (.ofList f.seed)
      (resultWant ty (m.cell .xmm0)) (resultPlace ty) (resultCell ty) m := by
  have hplaced : Placed f asg 0 f.paramTyping scope := by
    intro z o hz
    obtain ⟨j, p, hp, rfl, ho⟩ := h.placed z o hz
    exact ⟨mem_paramTyping (mem_params hp), paramPlace_held ho (lt_params hp)⟩
  have hknown : ∀ e ∈ f.paramTyping, e ∈ f.bindings := fun e he => List.mem_append_left _ he
  refine ⟨hlayout, hplaced, hknown, Nat.zero_le _, ?_, dest_result _ ty _, ?_, ?_⟩
  · intro z hz _
    obtain ⟨e, he, rfl⟩ := List.mem_map.1 hz
    obtain ⟨p, hp, rfl⟩ := List.mem_map.1 he
    obtain ⟨j, hj, hget⟩ := List.getElem_of_mem hp
    have hj' : j < args.length := hlen ▸ hj
    have hparam : f.params[j]? = some p := by rw [List.getElem?_eq_getElem hj, hget]
    have harg : args[j]? = some args[j] := List.getElem?_eq_getElem hj'
    obtain ⟨o, ho, _, hvalue⟩ := h.held j p args[j] hj hparam harg
    refine ⟨args[j], o, ?_, ho, hvalue⟩
    have hmem : (p.name, args[j]) ∈ (f.params.map Param.name).zip args := by
      refine List.mem_of_getElem? (i := j) ?_
      rw [List.getElem?_zip_eq_some, List.getElem?_map, hparam]
      exact ⟨rfl, harg⟩
    refine lookup_of_mem ?_ hmem
    rw [List.map_fst_zip (by rw [List.length_map, hlen])]
    exact nodup_params hlayout.loaded
  · intro z o ho _ hcell
    obtain ⟨e, he, hreserved⟩ := hplaced.cell hlayout hknown (Nat.zero_le _) ho
    obtain rfl := Option.some.inj (hcell.symm.trans he)
    exact hreserved (resultCell_mem_reserved _ ty).1
  · intro held hwant
    unfold resultWant at hwant
    split at hwant
    · exact Want.floatResult.inj hwant
    · cases hwant

theorem result_eq_ok : f.result = .ok ty ↔ f.result? = some ty := by
  unfold Func.result
  split <;> simp_all

theorem bodyCode_eq_ok {code : List Instr} {supply : Supply} :
    f.bodyCode asg = .ok (code, supply) ↔
      ∃ load scope ty body, loadParams asg 0 f.params [] = .ok (load, scope) ∧
        f.result? = some ty ∧
        block f.name asg f.body scope (some (resultPlace ty)) {} = .ok (body, supply) ∧
        code = load ++ body := by
  simp only [Func.bodyCode, Except.bind_eq_ok, Prod.exists, ← result_eq_ok]
  constructor
  · rintro ⟨load, scope, hload, h⟩
    split at h
    next e he => cases h
    next ty hty =>
      obtain ⟨⟨body, supply'⟩, hbody, hend⟩ := Except.bind_eq_ok.1 h
      cases hend
      exact ⟨load, scope, ty, body, hload, hty, hbody, rfl⟩
  · rintro ⟨load, scope, ty, body, hload, hty, hbody, rfl⟩
    refine ⟨load, scope, hload, ?_⟩
    rw [hty]
    exact Except.bind_eq_ok.2 ⟨(body, supply), hbody, rfl⟩

/-- What the code of a function consists of. -/
theorem code_eq_ok {code : List Instr} : f.code asg = .ok code ↔ f.name ≠ "" ∧
    ∃ load scope ty body supply, loadParams asg 0 f.params [] = .ok (load, scope) ∧
      f.result? = some ty ∧
      block f.name asg f.body scope (some (resultPlace ty)) {} = .ok (body, supply) ∧
      code = [Instr.text, .global f.name] ++ (entry f.name supply.slots.frameSize (savedRegs asg) ++
        (load ++ (body ++ epilogue (savedRegs asg)))) := by
  have hassemble (supply : Supply) (load body : List Instr) :
      prologue f.name supply.slots.frameSize (savedRegs asg) ++ (load ++ body) ++
          epilogue (savedRegs asg) =
        [Instr.text, .global f.name] ++ (entry f.name supply.slots.frameSize (savedRegs asg) ++
          (load ++ (body ++ epilogue (savedRegs asg)))) := by
    rw [prologue_eq]
    simp only [List.cons_append, List.nil_append, List.append_assoc]
  constructor
  · intro h
    unfold Func.code at h
    split at h
    next => cases h
    next hname =>
      split at h
      next => cases h
      next body supply hbody =>
        obtain ⟨load, scope, ty, code, hload, hty, hblock, rfl⟩ := bodyCode_eq_ok.1 hbody
        exact ⟨hname, load, scope, ty, code, supply, hload, hty, hblock,
          (Except.ok.inj h).symm.trans (hassemble supply load code)⟩
  · rintro ⟨hname, load, scope, ty, body, supply, hload, hty, hblock, rfl⟩
    have hbody := bodyCode_eq_ok.2 ⟨load, scope, ty, body, hload, hty, hblock, rfl⟩
    rw [Func.code, if_neg hname, hbody, ← hassemble]

/-- No label of a condition is the name of the function. -/
theorem LabelsIn.name_notMem {name : String} {lo hi : Nat} {names : List String}
    (h : LabelsIn name lo hi names) : name ∉ names := by
  intro hmem
  obtain ⟨k, _, _, hk | hk⟩ := h.number name hmem
  · have hlen := congrArg String.length hk
    simp only [elseLabel, String.length_append] at hlen
    have : ".L".length = 2 := rfl
    omega
  · have hlen := congrArg String.length hk
    simp only [endLabel, String.length_append] at hlen
    have : ".L".length = 2 := rfl
    omega

/-- The labels of a function are its name and those of its conditions. -/
theorem labelNames_code {code : List Instr} (h : f.code asg = .ok code) :
    ∃ names n, labelNames code = f.name :: names ∧ LabelsIn f.name 0 n names := by
  obtain ⟨_, load, scope, ty, body, supply, hload, _, hblock, rfl⟩ := code_eq_ok.1 h
  have hpush : labelNames ((savedRegs asg).map .push) = [] := by
    rw [labelNames, List.filterMap_map]
    exact List.filterMap_eq_nil_iff.2 fun _ _ => rfl
  have hpop : labelNames ((savedRegs asg).reverse.map .pop) = [] := by
    rw [labelNames, List.filterMap_map]
    exact List.filterMap_eq_nil_iff.2 fun _ _ => rfl
  have hloads : labelNames load = [] := (straight_loadParams anywhere (fun _ _ _ _ => trivial)
    (fun _ _ _ _ => trivial) hload).labelNames
  have hsub (n : Nat) : labelNames
      (if n = 0 then [] else [.sub (.reg .rsp) (.imm (Int64.ofNat n))]) = [] := by
    split <;> rfl
  have hentry (n : Nat) : labelNames (entry f.name n (savedRegs asg)) = [f.name] := by
    rw [entry, labelNames_append, labelNames_append, hpush, hsub]
    rfl
  have hend : labelNames (epilogue (savedRegs asg)) = [] := by
    rw [epilogue, labelNames_append, hpop]
    rfl
  refine ⟨labelNames body, supply.branches, ?_, (block_labels f.body hblock).labels⟩
  rw [labelNames_append, labelNames_append, labelNames_append, labelNames_append, hentry, hend,
    hloads, List.append_nil, List.nil_append]
  rfl

theorem nodup_labelNames_code {code : List Instr} (h : f.code asg = .ok code) :
    (labelNames code).Nodup := by
  obtain ⟨names, n, hnames, hlabels⟩ := labelNames_code h
  rw [hnames]
  exact List.nodup_cons.2 ⟨hlabels.name_notMem, hlabels.nodup⟩

/-- Every label in the code of a function is known by its place. -/
theorem resolves_code {code : List Instr} (h : f.code asg = .ok code) :
    (Code.ofList code).Resolves :=
  Code.resolves_ofList (nodup_labelNames_code h)

/-- The label of a function stands behind the directives. -/
theorem getElem?_code {code : List Instr} (h : f.code asg = .ok code) :
    code[2]? = some (.label f.name) := by
  obtain ⟨_, load, scope, _, body, supply, _, _, _, rfl⟩ := code_eq_ok.1 h
  rfl

theorem label_code {code : List Instr} (h : f.code asg = .ok code) :
    (Code.ofList code).labels[f.name]? = some 2 := by
  apply resolves_code h
  rw [Code.ofList, List.getElem?_toArray]
  exact getElem?_code h

theorem savedRegs_calleeSaved {r : Reg} (h : r ∈ savedRegs asg) : r ∈ Reg.calleeSaved :=
  (List.mem_filter.1 h).1

theorem nodup_savedRegs : (savedRegs asg).Nodup := List.Nodup.filter _ (by decide)

theorem room_of_fitting (h : f.Fitting) : Room f.bindings.length f.params.length := by
  unfold Func.Fitting at h
  have hparams : f.params.length ≤ f.bindings.length := by
    rw [Func.bindings, Func.paramTyping, List.length_append, List.length_map]
    exact Nat.le_add_right _ _
  exact ⟨by omega, by omega⟩

/-- From the label of a function to its body. -/
theorem start_ready {code : Code} {pc frame : Nat} {load : List Instr} (hf : f.LoaderForm)
    (hfits : asg.Fits f pools) (hpools : pools.Accepted) (hroom : f.Fitting)
    (hframe : frame < 2 ^ 31) (hload : loadParams asg 0 f.params [] = .ok (load, scope))
    (hat : code.At pc (entry f.name frame (savedRegs asg) ++ load))
    (hstack : m.Stack (callerAddress :: args)) (halign : aligned (m.cell .rsp).toInt64 = true)
    (hlen : args.length = f.params.length) (ty : Ty) :
    ∃ m', Reaches code pc m (pc + (entry f.name frame (savedRegs asg) ++ load).length) m' ∧
      m'.cell (.frame m'.base 8) = callerAddress ∧ m'.cell .rax = m.cell .rax ∧
      Ready f asg pools 0 f.paramTyping scope ((f.params.map Param.name).zip args)
        (liveBlock f.numbers f.body (.ofList f.seed)) (.ofList f.seed)
        (resultWant ty (m.cell .xmm0)) (resultPlace ty) (resultCell ty) m' := by
  have hargs := (room_of_fitting hroom).args
  obtain ⟨m₁, hentry, hopens⟩ := entry_ok hframe (fun r hr => savedRegs_calleeSaved hr)
    (List.length_filter_le _ Reg.calleeSaved) m
  have hcaller : m₁.cell (.frame m₁.base 8) = callerAddress :=
    hopens.word hstack (i := 0) rfl (by omega)
  have hwords (i : Nat) (w : UInt64) (hw : args[i]? = some w) :
      m₁.cell (.frame m₁.base (16 + 8 * i)) = w := by
    have hi := (List.getElem?_eq_some_iff.1 hw).1
    have hoffset : (16 + 8 * i : Int) = 8 * (i + 1 : Nat) + 8 := by omega
    rw [hoffset]
    exact hopens.word hstack hw (by omega)
  have hlayout : Layout f asg pools m₁.base :=
    ⟨hf, hfits, hpools, hopens.aligned halign, room_of_fitting hroom⟩
  obtain ⟨m', hrun, hkept, hloaded⟩ := (loaded_nil hwords).run hlayout hlen rfl hload
  have hbase' : m'.base = m₁.base := by
    rw [Machine.base, Machine.base, hkept .rbp (Or.inr (by simp [Cell.fixed])) (by decide)]
  have hxmm : m'.cell .xmm0 = m.cell .xmm0 := by
    rw [hkept _ (Or.inr (by simp [Cell.fixed])) (by decide),
      hopens.offStack (c := .xmm0) (show Cell.xmm0 ≠ .rsp by decide) (by decide)]
  refine ⟨m', reaches_of_executeAll hat ((executeAll_append hentry).trans hrun), ?_, ?_, ?_⟩
  · rw [hbase', hkept _ (Or.inr (by simp [Cell.fixed])) (by simp [Cell.frame, Cell.backup]),
      hcaller]
  · rw [hkept _ (Or.inl (by simp [Cell.temporaries])) (by decide),
      hopens.offStack (c := .rax) (show Cell.rax ≠ .rsp by decide) (by decide)]
  · rw [← hxmm]
    exact hloaded.ready (hbase'.symm ▸ hlayout) hlen ty

/-- A run returns a word in a cell, or it fails if there is none. It may need as many steps as
there are instructions. -/
def Finished (code : Code) (pc : Nat) (m : Machine) (c : Cell) : Option (UInt64 × UInt64) → Prop
  | some (w, _) => ∃ m', m'.cell c = w ∧ ∀ steps, run code steps pc m = .ok () m' ∨
      steps < code.instrs.size ∧ ∃ m'', run code steps pc m = .error .stepLimit m''
  | none => Fails code pc m

theorem code_finishes {code : List Instr} (hf : f.LoaderForm) (hfits : asg.Fits f pools)
    (hpools : pools.Accepted) (hroom : f.Fitting) (hcode : f.code asg = .ok code)
    (hty : f.result? = some ty)
    (hdefinite : blockDefinite f.body (resultWant ty (m.cell .xmm0)) = true)
    (hstack : m.Stack (callerAddress :: args)) (halign : aligned (m.cell .rsp).toInt64 = true)
    (hlen : args.length = f.params.length) :
    Finished (.ofList code) 2 m (resultCell ty) (blockDemand f.body
      (resultWant ty (m.cell .xmm0)) ((f.params.map Param.name).zip args) (m.cell .rax)) := by
  have hres := resolves_code hcode
  obtain ⟨_, load, scope, ty', body, supply, hload, hty', hblock, hall⟩ := code_eq_ok.1 hcode
  obtain rfl := Option.some.inj (hty.symm.trans hty')
  rw [← List.append_assoc (entry _ _ _)] at hall
  have hat := Code.at_ofList hall
  have hfew : (blockBindings f.body).length ≤ f.bindings.length := by
    rw [Func.bindings, List.length_append]
    exact Nat.le_add_left _ _
  have hframe : supply.slots.frameSize < 2 ^ 31 := by
    unfold Func.Fitting at hroom
    exact frameSize_lt hblock (by omega)
  have hstart := hat.append_right
  obtain ⟨m₁, hreach, hcaller, hrax, hready⟩ := start_ready hf hfits hpools hroom hframe hload
    hstart.append_left hstack halign hlen ty
  have hbody := block_delivers hres f.body hf.blockPart hdefinite hblock (by simpa using hfew)
    hstart.append_right.append_left hready
  rw [hrax] at hbody
  cases hdemand : blockDemand f.body (resultWant ty (m.cell .xmm0))
      ((f.params.map Param.name).zip args) (m.cell .rax) with
  | none =>
    rw [hdemand] at hbody
    exact hreach.fails hbody
  | some v =>
    rw [hdemand] at hbody
    obtain ⟨m₂, hreach₂, hw, _, hfixed, _⟩ := hbody
    have hbase : m₂.base = m₁.base := by
      rw [Machine.base, Machine.base, hfixed .rbp (by simp [Cell.fixed]) hready.dest.ne_rbp.symm]
    have hcaller₂ : m₂.cell (.frame m₂.base 8) = callerAddress := by
      rw [hbase, hfixed _ (by simp [Cell.fixed]) (frame_ne_resultCell _ _ ty), hcaller]
    obtain ⟨pc, m₃, m', hreach₃, hpc, hret, hcloses⟩ := epilogue_returns
      (fun r hr => savedRegs_calleeSaved hr) nodup_savedRegs hstart.append_right.append_right
      hcaller₂
    have hxmm' : m'.cell .xmm0 = m₂.cell .xmm0 :=
      hcloses.same _ (by decide) (by decide) fun r _ => by simp [Cell.ofReg, Cell.xmm0]
    have hrax' : m'.cell .rax = m₂.cell .rax := hcloses.same _ (by decide) (by decide)
      fun r hr => (Cell.ofReg_ne (savedRegs_calleeSaved hr)).2.2.symm
    refine ⟨m', ?_, fun steps => ?_⟩
    · rw [← hw]
      unfold resultCell
      split
      · exact hxmm'
      · exact hrax'
    · have hsize : pc < (Code.ofList code).instrs.size := by
        have hlength : (Code.ofList code).instrs.size = code.length := List.size_toArray
        rw [hlength, hall, ← Nat.succ_le_iff, Nat.succ_eq_add_one, hpc]
        simp only [List.length_append]
        omega
      refine (hret.run ((hreach.trans hreach₂).trans hreach₃) steps).imp_right fun hlimit => ?_
      exact ⟨Nat.lt_of_le_of_lt hlimit.1 hsize, hlimit.2⟩

def onCall (f : Func) (ty : Ty) (args : List UInt64) (m : Machine) : Option UInt64 :=
  (blockDemand f.body (resultWant ty (m.cell .xmm0)) ((f.params.map Param.name).zip args)
    (m.cell .rax)).map Prod.fst

section Call

variable {code : List Instr} (hf : f.LoaderForm) (hfits : asg.Fits f pools)
  (hpools : pools.Accepted) (hroom : f.Fitting) (hcode : f.code asg = .ok code)
  (hty : f.result? = some ty) (hlen : args.length = f.params.length)
  (hdefinite : blockDefinite f.body (resultWant ty (m.cell .xmm0)) = true)
include hf hfits hpools hroom hcode hty hlen hdefinite

/-- A call enters the code of the function behind the directives. -/
theorem call_enters : ∃ m₁, enter args m = .ok () m₁ ∧
    (Code.ofList code).labels[f.name]? = some 2 ∧
    Finished (.ofList code) 2 m₁ (resultCell ty) (blockDemand f.body
      (resultWant ty (m.cell .xmm0)) ((f.params.map Param.name).zip args) (m.cell .rax)) := by
  have hargs := (room_of_fitting hroom).args
  have hshort : 8 * args.length + 8 < 2 ^ 62 := by omega
  obtain ⟨m₁, henter, hstack, _, halign, hsame⟩ := enter_ok hshort m
  have hxmm := hsame .xmm0 (show Cell.xmm0 ≠ .rsp by decide)
  have hrax := hsame .rax (show Cell.rax ≠ .rsp by decide)
  have hfinish := code_finishes hf hfits hpools hroom hcode hty (hxmm.symm ▸ hdefinite) hstack
    halign hlen
  rw [hxmm, hrax] at hfinish
  exact ⟨m₁, henter, label_code hcode, hfinish⟩

theorem call_returns {w : UInt64} (hw : onCall f ty args m = some w) (limit : Int64) :
    (∃ r m', call (.ofList code) limit f.name args m = .ok r m' ∧ r.word ty = w) ∨
      stepsOf limit < code.length ∧
        ∃ m', call (.ofList code) limit f.name args m = .error (.failed f.name .stepLimit) m' := by
  obtain ⟨m₁, henter, hlabel, hfinish⟩ := call_enters hf hfits hpools hroom hcode hty hlen hdefinite
  obtain ⟨⟨v, rax⟩, hv, rfl⟩ := Option.map_eq_some_iff.1 hw
  rw [hv] at hfinish
  obtain ⟨m', hcell, hrun⟩ := hfinish
  rcases hrun (stepsOf limit) with hdone | ⟨hsteps, m'', hlimit⟩
  · refine Or.inl ⟨⟨m'.r[0].toInt64, m'.x[0]⟩, m', by simp only [call, hlabel, henter, hdone], ?_⟩
    rw [← hcell, CallResult.word, resultCell]
    split <;> rfl
  · exact Or.inr ⟨by simpa [Code.ofList] using hsteps, m'',
      by simp only [call, hlabel, henter, hlimit]⟩

theorem call_fails (hw : onCall f ty args m = none) (limit : Int64) :
    ∃ e m', call (.ofList code) limit f.name args m = .error e m' := by
  obtain ⟨m₁, henter, hlabel, hfinish⟩ := call_enters hf hfits hpools hroom hcode hty hlen hdefinite
  rw [Option.map_eq_none_iff.1 hw] at hfinish
  obtain ⟨e, m', hrun⟩ := hfinish (stepsOf limit)
  exact ⟨.failed f.name e, m', by simp only [call, hlabel, henter, hrun]⟩

end Call

end Codegen

end ExprBackend
