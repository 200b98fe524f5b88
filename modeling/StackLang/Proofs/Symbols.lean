import StackLang.Proofs.Occurrences

namespace StackLang

theorem mem_noteName_iff {names : List Label} {x y : Label} :
    x ∈ noteName names y ↔ x ∈ names ∨ x = y := by
  unfold noteName
  split
  next hy =>
    constructor
    · exact .inl
    · rintro (hx | rfl)
      · exact hx
      · exact hy
  next => simp

theorem mem_foldl_noteName {names xs : List Label} {x : Label} :
    x ∈ xs.foldl noteName names ↔ x ∈ names ∨ x ∈ xs := by
  induction xs generalizing names with
  | nil => simp
  | cons y xs ih => rw [List.foldl_cons, ih, mem_noteName_iff, List.mem_cons, or_assoc]

theorem idxOf_concat {xs : List Label} {x z : Label} (hz : z ∉ xs) (hx : x ∈ xs ++ [z]) :
    (xs ++ [z]).idxOf x = if x ∈ xs then xs.idxOf x else xs.length := by
  split
  next h => exact List.idxOf_append_of_mem h
  next h =>
    have hxz : x = z := by simpa [h] using hx
    rw [hxz, List.idxOf_append_of_notMem hz]
    simp

/-- Names are noted in the order in which they come first. -/
theorem idxOf_foldl_noteName {xs : List Label} {x y : Label} (hx : x ∈ xs) (hy : y ∈ xs) :
    (xs.foldl noteName []).idxOf x < (xs.foldl noteName []).idxOf y ↔ xs.idxOf x < xs.idxOf y := by
  induction xs using List.reverseRecOn with
  | nil => cases hx
  | append_singleton xs z ih =>
    have hmem : ∀ w, w ∈ xs.foldl noteName [] ↔ w ∈ xs := by simp [mem_foldl_noteName]
    rw [List.foldl_append, List.foldl_cons, List.foldl_nil, noteName]
    by_cases hz : z ∈ xs
    · have hold : ∀ w ∈ xs ++ [z], w ∈ xs := fun w hw => by
        rcases List.mem_append.mp hw with hw | hw
        · exact hw
        · rwa [List.mem_singleton.mp hw]
      rw [if_pos ((hmem z).mpr hz), List.idxOf_append_of_mem (hold x hx),
        List.idxOf_append_of_mem (hold y hy)]
      exact ih (hold x hx) (hold y hy)
    · have hlift : ∀ w ∈ xs ++ [z], w ∈ xs.foldl noteName [] ++ [z] := fun w hw => by
        simpa [hmem] using hw
      have hz' : z ∉ xs.foldl noteName [] := fun h => hz ((hmem z).mp h)
      rw [if_neg hz', idxOf_concat hz' (hlift x hx), idxOf_concat hz' (hlift y hy),
        idxOf_concat hz hx, idxOf_concat hz hy]
      simp only [hmem]
      have hlt : ∀ w ∈ xs, (xs.foldl noteName []).idxOf w < (xs.foldl noteName []).length ∧
          xs.idxOf w < xs.length := fun w hw =>
        ⟨List.idxOf_lt_length_of_mem ((hmem w).mpr hw), List.idxOf_lt_length_of_mem hw⟩
      by_cases hx' : x ∈ xs
      · by_cases hy' : y ∈ xs
        · simpa only [if_pos hx', if_pos hy'] using ih hx' hy'
        · simp only [if_pos hx', if_neg hy', hlt x hx']
      · by_cases hy' : y ∈ xs
        · have hlt := hlt y hy'
          simp only [if_neg hx', if_pos hy']
          omega
        · simp only [if_neg hx', if_neg hy', Nat.lt_irrefl]

/-- The table `σ` of a scope in which `targets` are assigned, in the order of the text, and which
has the parameters `params`. -/
structure Scope.Charts (σ : Scope) (targets params : List Label) : Prop where
  /-- Exactly the assigned names have local slots, -/
  named : ∀ x, (∃ slot, σ.locals.get? x = some slot) ↔ x ∈ targets
  /-- each its own, -/
  distinct : ∀ x y slot, σ.locals.get? x = some slot → σ.locals.get? y = some slot → x = y
  /-- from zero on without a gap, -/
  dense : ∀ slot, (∃ x, σ.locals.get? x = some slot) ↔ slot < σ.locals.size
  /-- in the order of their first assignments. -/
  ordered : ∀ x y i j, σ.locals.get? x = some i → σ.locals.get? y = some j →
    (i < j ↔ targets.idxOf x < targets.idxOf y)
  /-- The slot of a parameter counts the declared ones behind the first of its name. -/
  param : ∀ x, σ.params.get? x =
    if x ∈ params then some (params.length - 1 - params.idxOf x) else none
  /-- With different names, the parameters have all slots up to their number, each its own. -/
  param_bijective : ((∀ slot, (∃ x, σ.params.get? x = some slot) ↔ slot < params.length) ∧
    ∀ x y slot, σ.params.get? x = some slot → σ.params.get? y = some slot → x = y) ↔ params.Nodup

section Tables

theorem Table.Numbers.get?_eq_some {t : Table Nat} {names : List Label} (h : t.Numbers names)
    {x : Label} {slot : Nat} : t.get? x = some slot ↔ x ∈ names ∧ names.idxOf x = slot := by
  rw [h.get?]
  split
  next hx => simp [hx]
  next hx => simp [hx]

theorem Table.Numbers.exists_slot_iff {t : Table Nat} {names : List Label} (h : t.Numbers names)
    (slot : Nat) : (∃ x, t.get? x = some slot) ↔ slot < t.size := by
  simp only [h.get?_eq_some, h.size]
  constructor
  · rintro ⟨x, hx, rfl⟩
    exact List.idxOf_lt_length_of_mem hx
  · intro hlt
    exact ⟨names[slot], List.getElem_mem hlt, h.nodup.idxOf_getElem slot hlt⟩

theorem get?_paramSlots (params : List Label) (x : Label) :
    (Emitter.paramSlots params).get? x =
      if x ∈ params then some (params.length - 1 - params.idxOf x) else none := by
  induction params with
  | nil => rfl
  | cons y params ih =>
    rw [paramSlots_cons, Table.get?_insert, ih]
    by_cases hx : x = y
    · simp [hx]
    · rw [if_neg hx, List.idxOf_cons_ne params (Ne.symm hx)]
      by_cases hmem : x ∈ params
      · simp only [hmem, List.mem_cons, or_true, if_true, List.length_cons, Option.some.injEq]
        omega
      · simp [hmem, hx]

theorem get?_paramSlots_eq_some {params : List Label} {x : Label} {slot : Nat} :
    (Emitter.paramSlots params).get? x = some slot ↔
      x ∈ params ∧ params.idxOf x + slot + 1 = params.length := by
  rw [get?_paramSlots]
  split
  next h =>
    have hlt := List.idxOf_lt_length_of_mem h
    simp only [Option.some.injEq, h, true_and]
    omega
  next h => simp [h]

theorem paramSlots_bijective (params : List Label) :
    ((∀ slot, (∃ x, (Emitter.paramSlots params).get? x = some slot) ↔ slot < params.length) ∧
      ∀ x y slot, (Emitter.paramSlots params).get? x = some slot →
        (Emitter.paramSlots params).get? y = some slot → x = y) ↔ params.Nodup := by
  simp only [get?_paramSlots_eq_some]
  constructor
  · rintro ⟨honto, -⟩
    -- every position is the first of its name
    have hfirst : ∀ (i : Nat) (hi : i < params.length), params.idxOf params[i] = i := by
      intro i hi
      obtain ⟨x, hx, hslot⟩ := (honto (params.length - 1 - i)).mpr (by omega)
      have hidx : params.idxOf x = i := by omega
      subst hidx
      rw [List.getElem_idxOf]
    refine List.pairwise_iff_getElem.mpr fun i j hi hj hij heq => ?_
    have hij' : i = j := by rw [← hfirst i hi, heq, hfirst j hj]
    omega
  · intro hnodup
    refine ⟨fun slot => ⟨?_, fun hlt => ?_⟩, ?_⟩
    · rintro ⟨x, -, hslot⟩
      omega
    · have hlt' : params.length - 1 - slot < params.length := by omega
      refine ⟨params[params.length - 1 - slot], List.getElem_mem hlt', ?_⟩
      rw [hnodup.idxOf_getElem]
      omega
    · rintro x y slot ⟨hx, hxs⟩ ⟨-, hys⟩
      exact (List.idxOf_inj hx).mp (by omega)

theorem Scope.Numbers.charts {σ : Scope} {ss : List Stmt} {params : List Label}
    (h : σ.Numbers (Stmt.assignedAll [] ss) params) : σ.Charts (Stmt.targetsAll ss) params := by
  obtain ⟨hlocals, hparams⟩ := h
  rw [Stmt.assignedAll_eq] at hlocals
  have hmem : ∀ x, x ∈ (Stmt.targetsAll ss).foldl noteName [] ↔ x ∈ Stmt.targetsAll ss := by
    simp [mem_foldl_noteName]
  refine ⟨fun x => ?_, fun x y slot hx hy => ?_, ?_, fun x y i j hi hj => ?_, ?_, ?_⟩
  · simp only [hlocals.get?_eq_some, hmem, exists_and_left, exists_eq', and_true]
  · rw [hlocals.get?_eq_some] at hx hy
    exact (List.idxOf_inj hx.1).mp (hx.2.trans hy.2.symm)
  · exact hlocals.exists_slot_iff
  · obtain ⟨hx, rfl⟩ := hlocals.get?_eq_some.mp hi
    obtain ⟨hy, rfl⟩ := hlocals.get?_eq_some.mp hj
    exact idxOf_foldl_noteName ((hmem x).mp hx) ((hmem y).mp hy)
  · rw [hparams]
    exact get?_paramSlots params
  · rw [hparams]
    exact paramSlots_bijective params

theorem Stmt.charts_scope {p : List Stmt} {S : Stmt} {σ : Scope}
    (h : σ.Numbers (S.scopeNames p) S.parameters) : ∃ targets, σ.Charts targets S.parameters := by
  cases S with
  | func f params body => exact ⟨_, Scope.Numbers.charts h⟩
  | _ => exact ⟨_, Scope.Numbers.charts h⟩

end Tables

namespace Emitter

section Scopes

variable {s s' : Emitter} {f : Label} {params : List Label} {body ss : List Stmt}

/-- A declaration fills the scope of its function and touches no other one. -/
theorem gen_func_scopes (hplain : Stmt.PlainAll body)
    (h : (gen (Stmt.func f params body).toTree).run s = .ok () s') :
    (s'.scope f).Numbers (Stmt.assignedAll [] body) params ∧
      ∀ g, g ≠ f → s'.scope g = s.scope g := by
  rw [Stmt.toTree, gen] at h
  have hvalues : (params.map (Tree.leaf .parameter)).map Tree.value = params := by
    simp [Tree.leaf, Tree.value, Function.comp_def]
  simp only [run_bind_eq_ok, hvalues] at h
  obtain ⟨_, _, hget, h⟩ := h
  cases hget
  split at h
  next => cases h
  next =>
    simp only [run_bind_eq_ok] at h
    obtain ⟨_, _, hdeclare, _, s₂, hbody, hleave⟩ := h
    cases hdeclare
    cases hleave
    rw [gen] at hbody
    obtain ⟨-, eb⟩ := gen_stmts body hplain hbody
    rw [context_declare] at eb
    constructor
    · have hscope : s₂.scope f = s₂.context.scope := by rw [context, eb.current]
      have hkeeps := Stmt.contextAll_keeps (Stmt.inside s.context s.code.size f params) body
      change (s₂.scope f).Numbers _ _
      rw [hscope, eb.context]
      exact ⟨Stmt.numbers_contextAll body Table.numbers_nil, hkeeps.2.2⟩
    · intro g hg
      refine (eb.others g hg).trans ?_
      simp only [scope, Table.get?_insert, if_neg hg]

theorem gen_element_scopes {S : Stmt} (hS : S.Element) (hs : s.current = Scope.toplevel)
    (h : (gen S.toTree).run s = .ok () s') :
    ∀ g, g ≠ S.scopeName → s'.scope g = s.scope g := by
  cases S with
  | assign x e =>
    obtain ⟨-, e⟩ := gen_stmt (.assign x e) trivial h
    exact fun g hg => e.others g (hs.symm ▸ hg)
  | noop =>
    obtain ⟨-, e⟩ := gen_stmt .noop trivial h
    exact fun g hg => e.others g (hs.symm ▸ hg)
  | func f params body => exact (gen_func_scopes hS h).2
  | ifThen c t => exact hS.elim
  | ifElse c t e => exact hS.elim
  | loop c b => exact hS.elim
  | ret e => exact hS.elim
  | block ss => exact hS.elim

/-- What is generated next is not in the scope of a declared function. -/
theorem scopeName_ne_of_get? {S : Stmt} {Γ : Context} {a : Nat} {g : Label} {info : FunctionInfo}
    (hS : S.Accepted Γ a) (hg : g ≠ Scope.toplevel) (hget : Γ.functions.get? g = some info) :
    g ≠ S.scopeName := by
  cases S with
  | func f params body =>
    rintro rfl
    rw [hS.1] at hget
    cases hget
  | _ => exact hg

/-- The scope of a function stays as it is once it is declared. -/
theorem genElements_scopes (hss : ∀ S ∈ ss, S.Element) (hn : Program.Named ss)
    (hs : s.current = Scope.toplevel) (h : (genElements (Stmt.toTrees ss)).run s = .ok () s') :
    (∀ g info, g ≠ Scope.toplevel → s.functions.get? g = some info → s'.scope g = s.scope g) ∧
      ∀ f params body, .func f params body ∈ ss →
        (s'.scope f).Numbers (Stmt.assignedAll [] body) params := by
  induction ss generalizing s with
  | nil =>
    rw [Stmt.toTrees, genElements] at h
    cases h
    exact ⟨fun _ _ _ _ => rfl, fun _ _ _ hmem => by cases hmem⟩
  | cons S ss ih =>
    rw [Stmt.toTrees, genElements_cons_eq] at h
    simp only [run_bind_eq_ok] at h
    obtain ⟨_, s₁, hw, _, s₂, hrun, hrest⟩ := h
    have ew := warned_ok hw
    have hS := hss S List.mem_cons_self
    have hcurrent := ew.current.trans hs
    obtain ⟨haccepted, -, hcontext, hcurrent'⟩ := gen_element hS hcurrent hrun
    obtain ⟨hkept, hdeclared⟩ := ih (fun T hT => hss T (List.mem_cons_of_mem S hT))
      (fun f params body hmem => hn f params body (List.mem_cons_of_mem S hmem)) hcurrent' hrest
    have hfunctions : s₂.functions = (S.elementContext s₁.context s₁.code.size).functions :=
      congrArg Context.functions hcontext
    constructor
    · intro g info hg hget
      have hget₁ : s₁.context.functions.get? g = some info := by rwa [ew.context]
      have hget₂ : s₂.functions.get? g = some info := by
        rw [hfunctions]
        exact elementContext_grows haccepted hget₁
      have hne := scopeName_ne_of_get? haccepted hg hget₁
      calc s'.scope g = s₂.scope g := hkept g info hg hget₂
        _ = s₁.scope g := gen_element_scopes hS hcurrent hrun g hne
        _ = s.scope g := ew.others g (hs.symm ▸ hg)
    · intro f params body hmem
      rcases List.mem_cons.mp hmem with rfl | hmem
      · have hget : s₂.functions.get? f = some ⟨s₁.code.size, params.length⟩ := by
          rw [hfunctions, elementContext_func, Table.get?_insert, if_pos rfl]
        rw [hkept f _ (hn f params body List.mem_cons_self) hget]
        exact (gen_func_scopes hS hrun).1
      · exact hdeclared f params body hmem

end Scopes

end Emitter

section Programs

variable {p : Program} {s : Emitter}

theorem elements_scopes (hp : ∀ S ∈ p, S.Element) (hn : Program.Named p)
    (h : (Emitter.genElements (Stmt.toTrees p)).run Emitter.booted = .ok () s) :
    (s.scope Scope.toplevel).Numbers (Stmt.assignedAll [] p) [] ∧
      ∀ f params body, .func f params body ∈ p →
        (s.scope f).Numbers (Stmt.assignedAll [] body) params := by
  obtain ⟨-, -, hcontext, hcurrent⟩ := Emitter.gen_elements hp rfl h
  constructor
  · have hscope : s.scope Scope.toplevel = s.context.scope := by
      rw [Emitter.context, hcurrent]
    rw [hscope, hcontext]
    exact (Program.contextAfter_toplevel hn).1
  · exact (Emitter.genElements_scopes hp hn rfl h).2

theorem generate_scopes (hp : ∀ S ∈ p, S.Element) (hn : Program.Named p)
    (h : Emitter.generate p.toTree = .ok () s) :
    (s.scope Scope.toplevel).Numbers (Stmt.assignedAll [] p) [] ∧
      ∀ f params body, .func f params body ∈ p →
        (s.scope f).Numbers (Stmt.assignedAll [] body) params := by
  obtain ⟨s₁, code, helements, rfl⟩ := generate_elements h
  exact elements_scopes (s := s₁) hp hn helements

theorem generate_scope (hp : ∀ S ∈ p, S.Element) (hn : Program.Named p)
    (h : Emitter.generate p.toTree = .ok () s) {S : Stmt} (hS : S ∈ p) :
    (s.scope S.scopeName).Numbers (S.scopeNames p) S.parameters := by
  obtain ⟨htop, hfunctions⟩ := generate_scopes hp hn h
  cases S with
  | func f params body => exact hfunctions f params body hS
  | _ => exact htop

theorem code_at_element {before after : List Stmt} {S : Stmt} (hS : p = before ++ S :: after)
    {pc : Nat} (hlow : Program.addressAfter before ≤ pc)
    (hhigh : pc < Program.addressAfter (before ++ [S])) :
    p.code[pc]? = (S.elementCode (Program.contextAfter before)
      (Program.addressAfter before))[pc - Program.addressAfter before]? := by
  obtain ⟨pre, post, hcode, hlength⟩ :=
    Program.holds_element (s := Session.ofCode p.code none Sink.silent false) rfl hS
  have hcode' : p.code = pre ++ S.elementCode (Program.contextAfter before)
      (Program.addressAfter before) ++ post := hcode
  rw [Program.addressAfter_concat] at hhigh
  rw [hcode', List.append_assoc, List.getElem?_append_right (by omega),
    List.getElem?_append_left (by omega), hlength]

end Programs

/-- How code from `first` to `stop` uses the slots of the scope `σ`, if `os` are the names in the
text that it was made from and `earlier` is assigned in the text before. -/
structure Scope.Serves (σ : Scope) (params earlier : List Label) (os : List Occurrence)
    (code : List Instruction) (first stop : Nat) : Prop where
  locals : ∀ pc i, first ≤ pc → pc < stop → code[pc]? = some i →
    i.opcode = .loadl ∨ i.opcode = .storel → ∃ slot : Nat, i.operand = slot ∧ slot < σ.locals.size
  arguments : ∀ pc i, first ≤ pc → pc < stop → code[pc]? = some i → i.opcode = .loada →
    ∃ slot : Nat, i.operand = slot ∧ slot < params.length
  /-- Each name has its own instruction, -/
  separate : (os.map (·.address)).Nodup
  /-- and there are no other ones for variables. -/
  complete : ∀ pc i, first ≤ pc → pc < stop → code[pc]? = some i → i.isAccess = true →
    ∃ o ∈ os, o.address = pc
  /-- It is chosen by what is assigned at or before the name in the text. -/
  chosen : ∀ (k : Nat) (o : Occurrence), os[k]? = some o →
    first ≤ o.address ∧ o.address < stop ∧ ∃ i, code[o.address]? = some i ∧
      o.Means σ (earlier ++ Occurrence.targets (os.take (k + 1))) i

section Serves

variable {σ : Scope} {targets params earlier : List Label} {os : List Occurrence}
  {part code : List Instruction} {first stop : Nat}

theorem Renders.chosen (h : Renders σ (earlier.foldl noteName []) os first part)
    (hstop : stop = first + part.length)
    (hcode : ∀ pc, first ≤ pc → pc < stop → code[pc]? = part[pc - first]?) {k : Nat}
    {o : Occurrence} (ho : os[k]? = some o) : first ≤ o.address ∧ o.address < stop ∧
      ∃ i, code[o.address]? = some i ∧
        o.Means σ (earlier ++ Occurrence.targets (os.take (k + 1))) i := by
  obtain ⟨i, hlow, hi, hmeans⟩ := h.at_index ho
  have hlt := (List.getElem?_eq_some_iff.mp hi).1
  have hhigh : o.address < stop := by omega
  refine ⟨hlow, hhigh, i, (hcode _ hlow hhigh).trans hi, hmeans.congr ?_⟩
  simp [Occurrence.foldl_note, mem_foldl_noteName]

theorem Renders.exists_means (h : Renders σ (earlier.foldl noteName []) os first part)
    (hstop : stop = first + part.length)
    (hcode : ∀ pc, first ≤ pc → pc < stop → code[pc]? = part[pc - first]?) {pc : Nat}
    {i : Instruction} (hlow : first ≤ pc) (hhigh : pc < stop) (hi : code[pc]? = some i)
    (haccess : i.isAccess = true) :
    ∃ o ∈ os, o.address = pc ∧ ∃ names, o.Means σ names i := by
  have hi' := hi
  rw [hcode pc hlow hhigh] at hi'
  obtain ⟨o, ho, haddress⟩ := h.exists_occurrence hi' haccess
  have hpc : o.address = pc := by omega
  obtain ⟨k, hk⟩ := List.mem_iff_getElem?.mp ho
  obtain ⟨-, -, j, hj, hmeans⟩ := h.chosen hstop hcode hk
  rw [hpc, hi] at hj
  cases hj
  exact ⟨o, ho, hpc, _, hmeans⟩

/-- Code that renders a text stays within the slots of a chart. -/
theorem Renders.serves (h : Renders σ (earlier.foldl noteName []) os first part)
    (hσ : σ.Charts targets params) (hstop : stop = first + part.length)
    (hcode : ∀ pc, first ≤ pc → pc < stop → code[pc]? = part[pc - first]?) :
    σ.Serves params earlier os code first stop where
  locals pc i hlow hhigh hi hop := by
    have haccess : i.isAccess = true := by
      rcases hop with hop | hop
      · simp [Instruction.isAccess, hop]
      · simp [Instruction.isAccess, hop]
    obtain ⟨o, -, -, names, hmeans⟩ := h.exists_means hstop hcode hlow hhigh hi haccess
    cases hmeans with
    | store hslot => exact ⟨_, rfl, (hσ.dense _).mp ⟨_, hslot⟩⟩
    | load _ hslot => exact ⟨_, rfl, (hσ.dense _).mp ⟨_, hslot⟩⟩
    | argument => simp at hop
  arguments pc i hlow hhigh hi hop := by
    have haccess : i.isAccess = true := by simp [Instruction.isAccess, hop]
    obtain ⟨o, -, -, names, hmeans⟩ := h.exists_means hstop hcode hlow hhigh hi haccess
    cases hmeans with
    | store => cases hop
    | load => cases hop
    | @argument x a slot _ hslot =>
      rw [hσ.param] at hslot
      split at hslot
      next hx =>
        cases hslot
        have hlt := List.idxOf_lt_length_of_mem hx
        exact ⟨_, rfl, by omega⟩
      next => cases hslot
  separate := h.nodup_addresses
  complete pc i hlow hhigh hi haccess := by
    obtain ⟨o, ho, haddress, -⟩ := h.exists_means hstop hcode hlow hhigh hi haccess
    exact ⟨o, ho, haddress⟩
  chosen k o ho := h.chosen hstop hcode ho

end Serves

/-- In a scope of a program the local slots number the assigned names, in the order of their first
assignments, and the slots of the parameters are counted from the last one. The code of an element
stays within the slots of its scope. Each name in it has its own instruction: it is a local variable
if it is assigned at or before that place in the text of the scope, and otherwise a parameter. -/
theorem slots_dense {ts : List Token} {p : Program} {s : Emitter} (hts : ∀ t ∈ ts, t.Proper)
    (hparse : parseProgram ts = .ok p) (h : Emitter.generate p.toTree = .ok () s) :
    (s.scope Scope.toplevel).Charts (Stmt.targetsAll p) [] ∧
    (∀ f params body, .func f params body ∈ p →
      (s.scope f).Charts (Stmt.targetsAll body) params) ∧
    ∀ before S after, p = before ++ S :: after →
      (∀ f params body, S = .func f params body →
        s.functions.get? f = some ⟨Program.addressAfter before, params.length⟩) ∧
      (s.scope S.scopeName).Serves S.parameters (Stmt.targetsAll (S.textBefore before))
        (S.occurrencesFrom before (Program.addressAfter before)) s.code.toList
        (Program.addressAfter before) (Program.addressAfter (before ++ [S])) := by
  have hp := parseProgram_element hparse
  have hn := Program.named_of_proper (parseProgram_proper hts hparse)
  obtain ⟨hcode, haccepted, -⟩ := generate_ok hp h
  obtain ⟨htop, hfunctions⟩ := generate_scopes hp hn h
  refine ⟨htop.charts, fun f params body hf => ?_, fun before S after hS => ?_⟩
  · exact (hfunctions f params body hf).charts
  · refine ⟨?_, ?_⟩
    · rintro f params body rfl
      exact functions_of_element hp h hS
    · have hmem : S ∈ p := hS ▸ List.mem_append_right before List.mem_cons_self
      have hscope := generate_scope hp hn h hmem
      have hrenders := element_renders haccepted hn hS hscope
      rw [Stmt.assignedAll_eq] at hrenders
      rw [hcode]
      obtain ⟨targets, hcharts⟩ := Stmt.charts_scope hscope
      exact hrenders.serves hcharts (Program.addressAfter_concat before S)
        fun pc hlow hhigh => code_at_element hS hlow hhigh

/-- Two parameters have one name, another one is assigned after it has been read, and a local
variable is assigned in a branch first. -/
theorem slots_dense_shadowed :
    let f : Label := some (.word "f")
    let a : Label := some (.word "a")
    let b : Label := some (.word "b")
    let c : Label := some (.word "c")
    ∃ (ts : List Token) (p : Program) (s : Emitter),
      tokenize "function f(a,b,a){if(b)c=a;b=c;return b-a;}function main(){return f(1,2,3);}" =
        .ok ts ∧
      parseProgram ts = .ok p ∧ Emitter.generate p.toTree = .ok () s ∧
      (s.scope f).Charts [c, b] [a, b, a] ∧
      (s.scope f).Serves [a, b, a] []
        [⟨b, false, 2⟩, ⟨c, true, 6⟩, ⟨a, false, 5⟩, ⟨b, true, 9⟩, ⟨c, false, 8⟩, ⟨b, false, 11⟩,
         ⟨a, false, 10⟩] s.code.toList 2 14 := by
  intro f a b c
  let comma : Token := ⟨.comma, none⟩
  let name (x : Label) : Token := ⟨.identifier, x⟩
  let number (k : Int) : Token := ⟨.number, some (.int k)⟩
  let ts : List Token :=
    [⟨.functionWord, none⟩, name f, ⟨.lparen, none⟩, name a, comma, name b, comma, name a,
     ⟨.rparen, none⟩, ⟨.lbrace, none⟩, ⟨.ifWord, none⟩, ⟨.lparen, none⟩, name b, ⟨.rparen, none⟩,
     name c, ⟨.assign, none⟩, name a, ⟨.semi, none⟩, name b, ⟨.assign, none⟩, name c, ⟨.semi, none⟩,
     ⟨.returnWord, none⟩, name b, ⟨.minus, none⟩, name a, ⟨.semi, none⟩, ⟨.rbrace, none⟩,
     ⟨.functionWord, none⟩, name Program.mainName, ⟨.lparen, none⟩, ⟨.rparen, none⟩,
     ⟨.lbrace, none⟩, ⟨.returnWord, none⟩, name f, ⟨.lparen, none⟩, number 1, comma, number 2,
     comma, number 3, ⟨.rparen, none⟩, ⟨.semi, none⟩, ⟨.rbrace, none⟩, ⟨.eof, none⟩]
  let body : List Stmt :=
    [.ifThen (.var b) (.assign c (.var a)), .assign b (.var c),
     .ret (.binary .sub (.var b) (.var a))]
  let main : Stmt := .func Program.mainName []
    [.ret (.call f [.num (some (.int 1)), .num (some (.int 2)), .num (some (.int 3))])]
  let p : Program := [.func f [a, b, a] body, main]
  have hscan :
      tokenize "function f(a,b,a){if(b)c=a;b=c;return b-a;}function main(){return f(1,2,3);}" =
        .ok ts := by decide +kernel
  have hparse : parseProgram ts = .ok p := by cbv
  obtain ⟨_, s, hs⟩ := exists_of_run_ok (x := Emitter.gen p.toTree) (s := {}) (by decide +kernel)
  obtain ⟨-, hcharts, hserves⟩ := slots_dense (tokenize_proper hscan) hparse hs
  exact ⟨ts, p, s, hscan, hparse, hs, hcharts f [a, b, a] body List.mem_cons_self,
    (hserves [] (.func f [a, b, a] body) [main] rfl).2⟩

end StackLang
