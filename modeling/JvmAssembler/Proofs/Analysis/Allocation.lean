import JvmAssembler.Proofs.Analysis.Course
import JvmAssembler.Proofs.Frame.Renumber

/-! Objects that are not initialized yet are told apart by the instruction that allocated them. An
instruction in a loop allocates one object in each round, but no frame of the analysis holds two of
them: an object from an earlier round is in no slot that the analysis still lets be used. So calling
the constructor of an object may mark all slots that show the same instruction.

Blocks are the reason. A block has no frame before the first one arrives, so what arrives first
cannot hold an object that was allocated in the block itself, and frames keep their shapes
afterwards. -/

namespace JvmAssembler

theorem Frame.SitesIn.imp {S T : BinaryName → Nat → Prop} {f : Frame} (h : f.SitesIn S)
    (himp : ∀ owner site, S owner site → T owner site) : f.SitesIn T := by
  have htype : ∀ t : ValueType, t.SitesIn S → t.SitesIn T := by
    intro t ht
    cases t with
    | uninitialized owner site => exact himp owner site ht
    | _ => trivial
  exact ⟨fun i v hv => htype v.type (h.locals i v hv), fun v hv => htype v.type (h.stack v hv)⟩

/-- Instructions are numbered by their positions. -/
def Body.Numbered (body : Body) : Prop :=
  ∀ (i : Nat) (line : Line), body.lines[i]? = some line → line.id = i

namespace Progress

variable {body : Body} {p q : Progress}

/-- The instruction is in a block that has a frame and does not start at `i`. -/
def Elsewhere (body : Body) (p : Progress) (i site : Nat) : Prop :=
  ∃ leader, leader ≠ i ∧ (p.frame? leader).isSome ∧ body.InBlock leader site

/-- The objects in a recorded frame were allocated in other blocks, which have frames too. -/
def Separate (body : Body) (p : Progress) : Prop :=
  p.Meets fun i f => f.SitesIn fun _ site => p.Elsewhere body i site

theorem Elsewhere.arrives {i j site : Nat} {f : Frame} (h : p.Elsewhere body j site)
    (harrives : Arrives i f p q) : q.Elsewhere body j site := by
  obtain ⟨leader, hne, hframe, hblock⟩ := h
  exact ⟨leader, hne, harrives.isSome_frame? hframe, hblock⟩

/-- The first frame at a block comes from other blocks, and later ones only widen it. -/
theorem Arrives.separate {i : Nat} {f : Frame} (h : Arrives i f p q) (hp : p.Separate body)
    (hf : f.SitesIn fun _ site => ∃ leader, (p.frame? leader).isSome ∧ body.InBlock leader site) :
    q.Separate body := by
  intro j g hg
  by_cases hij : j = i
  · subst hij
    rcases h.here with ⟨hnone, hnew⟩ | ⟨expected, hexpected, _, hafter⟩
    · rw [hnew, Option.some.injEq] at hg
      subst hg
      refine hf.imp fun _ site ⟨leader, hframe, hblock⟩ => ?_
      refine ⟨leader, ?_, h.isSome_frame? hframe, hblock⟩
      rintro rfl
      rw [hnone] at hframe
      cases hframe
    · have hkept : expected.SitesIn fun _ site => q.Elsewhere body j site :=
        (hp j expected hexpected).imp fun _ _ hsite => hsite.arrives h
      rcases hafter with hsame | hjoin
      · rw [hsame, Option.some.injEq] at hg
        exact hg ▸ hkept
      · rw [hjoin, Option.some.injEq] at hg
        exact hg ▸ hkept.join
  · rw [h.others hij] at hg
    exact (hp j g hg).imp fun _ _ hsite => hsite.arrives h

end Progress

namespace Analysis

open Progress

variable {body : Body} {thisClass : BinaryName} {initial : Frame} {journal : Journal}
  {a b : Point}

/-- The objects in the frame of an instruction were allocated in other blocks, or before the
instruction in its own block. -/
def Point.Separate (body : Body) : Point → Prop
  | queue p => p.Separate body
  | instruction leader i f p =>
    p.Separate body ∧
      f.SitesIn fun _ site => p.Elsewhere body leader site ∨ body.InBlock leader site ∧ site < i

theorem Step.separate (hids : body.Numbered)
    (h : Step body thisClass a b) (hplaced : a.Placed body) (ha : a.Separate body) :
    b.Separate body := by
  have hsent : ∀ {leader i : Nat} {f f' : Frame} {p q : Progress} {line : Line},
      Executes body thisClass i f p line f' q →
      (Point.instruction leader i f p).Placed body →
      (Point.instruction leader i f p).Separate body →
      q.Separate body ∧ (q.frame? leader).isSome ∧ f'.SitesIn fun _ site =>
        q.Elsewhere body leader site ∨ body.InBlock leader site ∧ site < i + 1 := by
    intro leader i f f' p q line hexecutes hplaced ⟨hp, hf⟩
    obtain ⟨_, hleader, _, hblock⟩ := hplaced
    have hsites : f'.SitesIn fun _ site =>
        p.Elsewhere body leader site ∨ body.InBlock leader site ∧ site < i + 1 := by
      refine Frame.SitesIn.apply (hf.imp fun _ site hsite => ?_) (fun owner _ => ?_)
        hexecutes.happly
      · exact hsite.imp_right fun hinside => ⟨hinside.1, Nat.lt_succ_of_lt hinside.2⟩
      · rw [hids i line hexecutes.hline]
        exact .inr ⟨hblock, Nat.lt_succ_self i⟩
    refine hexecutes.sends.keeps (I := fun q => q.Separate body ∧ (q.frame? leader).isSome ∧
      f'.SitesIn fun _ site =>
        q.Elsewhere body leader site ∨ body.InBlock leader site ∧ site < i + 1)
      ⟨hp, hleader, hsites⟩ ?_
    rintro q r label ⟨hq, hleader, hsites⟩ harrives
    refine ⟨harrives.separate hq (hsites.imp fun _ site hsite => ?_),
      harrives.isSome_frame? hleader, hsites.imp fun _ site hsite => ?_⟩
    · rcases hsite with ⟨leader', _, hframe, hinside⟩ | ⟨hinside, _⟩
      · exact ⟨leader', hframe, hinside⟩
      · exact ⟨leader, hleader, hinside⟩
    · exact hsite.imp_left fun helsewhere => helsewhere.arrives harrives
  cases h with
  | @enter p leader rest f hpop hframe =>
      have hp : p.Separate body := ha
      exact ⟨hp, (hp leader f hframe).imp fun _ _ => .inl⟩
  | skip hpop hframe => exact ha
  | next hexecutes hfalls hend hnext =>
      obtain ⟨hq, _, hsites⟩ := hsent hexecutes hplaced ha
      exact ⟨hq, hsites⟩
  | fall hexecutes hfalls hend hnext harrives =>
      obtain ⟨hq, hleader, hsites⟩ := hsent hexecutes hplaced ha
      refine (arrives_of_propagate harrives).separate hq (hsites.imp fun _ site hsite => ?_)
      rcases hsite with ⟨leader', _, hframe, hinside⟩ | ⟨hinside, _⟩
      · exact ⟨leader', hframe, hinside⟩
      · exact ⟨_, hleader, hinside⟩
  | leave hexecutes hstops => exact (hsent hexecutes hplaced ha).1

theorem Reaches.separate (hids : body.Numbered)
    (hinitial : initial.SitesIn fun _ _ => False)
    (h : Reaches body thisClass initial journal a) : a.Separate body := by
  induction h with
  | start h =>
      refine (arrives_of_propagate h).separate ?_ (hinitial.imp fun _ _ => False.elim)
      intro i f hf
      rw [frame?_start] at hf
      cases hf
  | step hreaches hstep ih => exact hstep.separate hids hreaches.placed ih

/-- No object in a frame was allocated by the instruction that the frame stands at. -/
theorem Reaches.sites_ne (hids : body.Numbered)
    (hinitial : initial.SitesIn fun _ _ => False) {leader i : Nat} {f : Frame} {p : Progress}
    (h : Reaches body thisClass initial journal (.instruction leader i f p)) :
    f.SitesIn fun _ site => site ≠ i := by
  obtain ⟨_, _, _, hblock⟩ := h.placed
  refine (h.separate hids hinitial).2.imp fun _ site hsite => ?_
  rintro rfl
  rcases hsite with ⟨leader', hne, _, hblock'⟩ | ⟨_, hlt⟩
  · exact hne (hblock'.unique hblock)
  · exact Nat.lt_irrefl _ hlt

end Analysis

/-- The last step of a path in which it passed an instruction. -/
def lastStep? (passed : List Nat) (site : Nat) : Option Nat := passed.zipIdx.reverse.lookup site

theorem lastStep?_append_singleton (passed : List Nat) (i site : Nat) :
    lastStep? (passed ++ [i]) site =
      if site = i then some passed.length else lastStep? passed site := by
  rw [lastStep?, List.zipIdx_append, List.reverse_append]
  by_cases h : site = i
  · simp [h]
  · have hne : (site == i) = false := by simpa using h
    simp [h, hne, lastStep?, List.lookup_cons]

theorem getElem?_of_lastStep? {passed : List Nat} {site step : Nat}
    (h : lastStep? passed site = some step) : passed[step]? = some site := by
  rw [lastStep?, List.lookup_eq_some_iff] at h
  obtain ⟨before, after, hsplit, _⟩ := h
  have hmem : (site, step) ∈ passed.zipIdx := by
    rw [← List.mem_reverse, hsplit]
    exact List.mem_append_right _ List.mem_cons_self
  exact List.mem_zipIdx_iff_getElem?.mp hmem

/-- A type that a path finds in a slot, with the numbers of its own steps for the places of
allocations, and the type of the slot in the analysis: an object that is not initialized is the one
that was allocated when the path last passed the instruction, and other types have one shape. -/
def StemsFrom (passed : List Nat) (t : ValueType) : ValueType → Prop
  | .uninitialized owner site => ∃ step, lastStep? passed site = some step ∧
      t = .uninitialized owner step
  | u => t.SameShape u

namespace StemsFrom

variable {passed : List Nat} {t u w : ValueType}

theorem refl_of_sitesIn (h : t.SitesIn fun _ _ => False) : StemsFrom passed t t := by
  cases t with
  | uninitialized owner site => exact h.elim
  | _ => exact ValueType.sameShape_refl _

theorem trans_sameShape (h : StemsFrom passed t u) (huw : u.SameShape w) :
    StemsFrom passed t w := by
  rcases ValueType.eq_of_sameShape huw with rfl | ⟨hu, hw⟩
  · exact h
  · cases u with
    | null | anyObject | reference =>
        cases w with
        | null | anyObject | reference => exact ValueType.SameShape.trans h huw
        | _ => cases hw
    | _ => cases hu

/-- The number of a place in the path, for places that the path has passed. -/
theorem sameShape_renumber {i : Nat} (h : StemsFrom passed t u)
    (hu : u.SitesIn fun _ site => site ≠ i) :
    t.SameShape (u.renumber fun site => (lastStep? (passed ++ [i]) site).getD 0) := by
  cases u with
  | uninitialized owner site =>
      obtain ⟨step, hstep, rfl⟩ := h
      have hne : site ≠ i := hu
      rw [ValueType.renumber, lastStep?_append_singleton, if_neg hne, hstep]
      exact ValueType.sameShape_refl _
  | _ => exact h

theorem of_sameShape_renumber
    (hu : u.SitesIn fun _ site => (lastStep? passed site).isSome)
    (h : t.SameShape (u.renumber fun site => (lastStep? passed site).getD 0)) :
    StemsFrom passed t u := by
  cases u with
  | uninitialized owner site =>
      obtain ⟨step, hstep⟩ := Option.isSome_iff_exists.mp hu
      refine ⟨step, hstep, ?_⟩
      rcases ValueType.eq_of_sameShape h with heq | ⟨_, hinit⟩
      · rw [heq, ValueType.renumber, hstep, Option.getD_some]
      · cases hinit
  | _ => exact h

end StemsFrom

namespace Frame.Related

variable {f g : Frame} {r q : ValueType → ValueType → Prop} {S : BinaryName → Nat → Prop}
  {m : Nat → Nat}

theorem renumber (h : f.Related r g) (hg : g.SitesIn S)
    (himp : ∀ t u, r t u → u.SitesIn S → q t (u.renumber m)) : f.Related q (g.renumber m) where
  stack := by
    refine ⟨h.stack.start_left, SlotVec.start_ofList _, ?_⟩
    rw [stack_renumber, SlotVec.renumber, SlotVec.toList_ofList, ValuesRelated,
      List.forall₂_map_right_iff]
    refine List.forall₂_iff_zip.mpr ⟨h.stack.values.length_eq, fun {v w} hmem => ?_⟩
    exact himp _ _ (List.forall₂_zip h.stack.values hmem) (hg.stack w (List.of_mem_zip hmem).2)
  locals := by
    intro i w' hw'
    rw [getElem?_renumber_locals, Option.map_eq_some_iff] at hw'
    obtain ⟨w, hw, rfl⟩ := hw'
    rcases h.locals i w hw with htop | ⟨v, hv, hvw⟩
    · exact .inl (ValueType.renumber_eq_top.mpr htop)
    · exact .inr ⟨v, hv, himp _ _ hvw (hg.locals i w hw)⟩

theorem of_renumber (h : f.Related q (g.renumber m)) (hg : g.SitesIn S)
    (hstart : g.stack.start = 0) (himp : ∀ t u, u.SitesIn S → q t (u.renumber m) → r t u) :
    f.Related r g where
  stack := by
    have hvalues := h.stack.values
    rw [stack_renumber, SlotVec.renumber, SlotVec.toList_ofList, ValuesRelated,
      List.forall₂_map_right_iff] at hvalues
    refine ⟨h.stack.start_left, hstart, ?_⟩
    refine List.forall₂_iff_zip.mpr ⟨hvalues.length_eq, fun {v w} hmem => ?_⟩
    exact himp _ _ (hg.stack w (List.of_mem_zip hmem).2) (List.forall₂_zip hvalues hmem)
  locals := by
    intro i w hw
    have hw' : (g.renumber m).locals[i]? = some (w.renumber m) := by
      rw [getElem?_renumber_locals, hw]
      rfl
    rcases h.locals i _ hw' with htop | ⟨v, hv, hvw⟩
    · exact .inl (ValueType.renumber_eq_top.mp htop)
    · exact .inr ⟨v, hv, himp _ _ (hg.locals i w hw) hvw⟩

/-- A frame without allocations is found as it is. -/
theorem stemsFrom_self (h : f.SitesIn fun _ _ => False) (hstart : f.stack.start = 0)
    (passed : List Nat) : f.Related (StemsFrom passed) f where
  stack := ⟨hstart, hstart, List.forall₂_same.mpr fun v hv => .refl_of_sitesIn (h.stack v hv)⟩
  locals := fun i v hv => .inr ⟨v, hv, .refl_of_sitesIn (h.locals i v hv)⟩

theorem stemsFrom_trans {passed : List Nat} {g' : Frame} (h : f.Related (StemsFrom passed) g)
    (hshape : g.Related ValueType.SameShape g') : f.Related (StemsFrom passed) g' :=
  h.trans .sameShape (fun _ _ _ => .trans_sameShape) hshape

/-- The places in a frame that a path stems from are ones that the path has passed. -/
theorem sitesIn_of_stemsFrom {passed : List Nat} (h : f.Related (StemsFrom passed) g) :
    g.SitesIn fun _ site => (lastStep? passed site).isSome := by
  have htype : ∀ t u : ValueType, StemsFrom passed t u →
      u.SitesIn fun _ site => (lastStep? passed site).isSome := by
    intro t u htu
    cases u with
    | uninitialized owner site =>
        obtain ⟨step, hstep, _⟩ := htu
        exact Option.isSome_iff_exists.mpr ⟨step, hstep⟩
    | _ => trivial
  refine ⟨fun i w hw => ?_, fun w hw => ?_⟩
  · rcases h.locals i w hw with htop | ⟨v, _, hvw⟩
    · rw [htop]
      trivial
    · exact htype _ _ hvw
  · obtain ⟨v, _, hvw⟩ := exists_of_mem_right h.stack.values hw
    exact htype _ _ hvw

end Frame.Related

/-- An instruction that a path passes, with the number of the step, keeps apart what is allocated in
different steps as long as the analysis shows no object of the instruction itself. -/
theorem Line.apply_stemsFrom {passed : List Nat} {i : Nat} {line : Line} {thisClass : BinaryName}
    {f g g' : Frame} (hid : line.id = i) (h : f.Related (StemsFrom passed) g)
    (hfresh : g.SitesIn fun _ site => site ≠ i) (happly : line.apply thisClass g = .ok g') :
    ∃ f', ({ line with id := passed.length } : Line).apply thisClass f = .ok f' ∧
      f'.Related (StemsFrom (passed ++ [i])) g' := by
  let number : Nat → Nat := fun site => (lastStep? (passed ++ [i]) site).getD 0
  have hpassed : g.SitesIn fun _ site => (lastStep? (passed ++ [i]) site).isSome := by
    refine h.sitesIn_of_stemsFrom.imp fun _ site hsite => ?_
    rw [lastStep?_append_singleton]
    split
    · rfl
    · exact hsite
  have hinj : ∀ {j k : Nat},
      (lastStep? (passed ++ [i]) j).isSome → (lastStep? (passed ++ [i]) k).isSome →
      number j = number k → j = k := by
    intro j k hj hk heq
    obtain ⟨step, hstep⟩ := Option.isSome_iff_exists.mp hj
    obtain ⟨step', hstep'⟩ := Option.isSome_iff_exists.mp hk
    simp only [number, hstep, hstep', Option.getD_some] at heq
    have hget := getElem?_of_lastStep? hstep
    rw [heq, getElem?_of_lastStep? hstep', Option.some.injEq] at hget
    exact hget.symm
  have hline : line.renumber number = { line with id := passed.length } := by
    simp only [Line.renumber, number, hid, lastStep?_append_singleton, if_true, Option.getD_some]
  have hrenumbered := Line.apply_renumber (m := number) hinj hpassed happly
  rw [hline] at hrenumbered
  have hrelated : f.Related ValueType.SameShape (g.renumber number) :=
    h.renumber hfresh fun _ _ htu hu => htu.sameShape_renumber hu
  obtain ⟨f', hf', hrelated', _⟩ := Line.apply_related .sameShape hrelated hrenumbered
  refine ⟨f', hf', ?_⟩
  have hsites : g'.SitesIn fun _ site => (lastStep? (passed ++ [i]) site).isSome := by
    refine hpassed.apply (fun _ _ => ?_) happly
    rw [hid, lastStep?_append_singleton, if_pos rfl]
    rfl
  exact hrelated'.of_renumber hsites (Progress.start_of_apply h.stack.start_right happly)
    fun _ _ hu htu => .of_sameShape_renumber hu htu

namespace Body

/-- Simulates the instructions with the given numbers, one by one. Each step has a number of its own,
so that objects which one instruction allocates in different steps are different. -/
def followSteps (body : Body) (thisClass : BinaryName) :
    (step : Nat) → List Nat → Frame → Except CompileError Frame
  | _, [], f => .ok f
  | step, i :: rest, f =>
    match body.lines[i]? with
    | none => .error (.fallsOffEnd none {})
    | some line =>
      ({ line with id := step } : Line).apply thisClass f >>= body.followSteps thisClass (step + 1) rest

theorem followSteps_append_singleton {body : Body} {thisClass : BinaryName} {step : Nat}
    {passed : List Nat} {i : Nat} {line : Line} {f g h : Frame}
    (hpassed : body.followSteps thisClass step passed f = .ok g)
    (hline : body.lines[i]? = some line)
    (happly : ({ line with id := step + passed.length } : Line).apply thisClass g = .ok h) :
    body.followSteps thisClass step (passed ++ [i]) f = .ok h := by
  induction passed generalizing f step with
  | nil =>
      cases hpassed
      rw [List.length_nil, Nat.add_zero] at happly
      simp only [List.nil_append, followSteps, hline, happly]
      rfl
  | cons j rest ih =>
      simp only [List.cons_append, followSteps] at hpassed ⊢
      cases hj : body.lines[j]? with
      | none =>
          rw [hj] at hpassed
          cases hpassed
      | some other =>
          simp only [hj] at hpassed ⊢
          obtain ⟨f', hf', hpassed⟩ := exists_of_bind_eq_ok hpassed
          rw [hf']
          refine ih hpassed ?_
          rw [List.length_cons] at happly
          rwa [Nat.add_assoc, Nat.add_comm 1]

end Body

namespace Analysis

open Progress

variable {body : Body} {thisClass : BinaryName} {initial : Frame} {journal journal' : Journal}
  {analysis : Analysis}

/-- How the analysis comes to apply an instruction to a frame: the block is entered with a recorded
frame, or the instruction before it in the block was applied. -/
theorem Reaches.instruction_cases {leader j : Nat} {g : Frame} {p : Progress}
    (h : Reaches body thisClass initial journal (.instruction leader j g p)) :
    ((body.labels.block? j).isSome ∧
      ∃ a, Reaches body thisClass initial journal a ∧ a.progress.frame? j = some g) ∨
    (body.labels.block? j = none ∧ ∃ i line f q, j = i + 1 ∧
      Reaches body thisClass initial journal (.instruction leader i f q) ∧
      body.lines[i]? = some line ∧ line.apply thisClass f = .ok g) := by
  have hplaced := h.placed
  cases h with
  | step ha hstep =>
      cases hstep with
      | enter hpop hframe => exact .inl ⟨hplaced.2.2.2.starts, _, ha, hframe⟩
      | next hexecutes hfalls hend hnext =>
          exact .inr ⟨hnext, _, _, _, _, rfl, ha, hexecutes.hline, hexecutes.happly⟩

/-- A path to an instruction whose frame is shown by one of the analysis. -/
def Explained (body : Body) (thisClass : BinaryName) (initial : Frame) (i : Nat) (g : Frame) :
    Prop :=
  ∃ passed f, body.Path passed i ∧ body.followSteps thisClass 0 passed initial = .ok f ∧
    f.Related (StemsFrom passed) g

theorem Explained.join {i : Nat} {g g' : Frame} (hg : Explained body thisClass initial i g)
    (hg' : Explained body thisClass initial i g') (h : g.mismatch? g' = none) :
    Explained body thisClass initial i (g.join g') := by
  obtain ⟨passed, f, hpath, hfollow, hstems⟩ := hg
  obtain ⟨_, _, _, _, hstems'⟩ := hg'
  have hrelated := Frame.related_of_mismatch? hstems.stack.start_right hstems'.stack.start_right h
  exact ⟨passed, f, hpath, hfollow,
    hstems.stemsFrom_trans (Frame.SameShape.join hrelated).symm.related⟩

theorem Step.explained (hids : body.Numbered)
    (hfresh : ∀ {leader i : Nat} {f : Frame} {p : Progress}, a = .instruction leader i f p →
      f.SitesIn fun _ site => site ≠ i)
    (h : Step body thisClass a b) (ha : a.Meets (Explained body thisClass initial)) :
    b.Meets (Explained body thisClass initial) := by
  have hexplained : ∀ {leader i : Nat} {g g' : Frame} {p q : Progress} {line : Line},
      a = .instruction leader i g p → Executes body thisClass i g p line g' q →
      Explained body thisClass initial i g →
      ∀ {j : Nat}, body.Flows i j → Explained body thisClass initial j g' := by
    rintro leader i g g' p q line hinstruction hexecutes ⟨passed, f, hpath, hfollow, hstems⟩ j hflows
    obtain ⟨f', hf', hstems'⟩ := Line.apply_stemsFrom (hids i line hexecutes.hline) hstems
      (hfresh hinstruction) hexecutes.happly
    refine ⟨passed ++ [i], f', hpath.step hflows, ?_, hstems'⟩
    exact Body.followSteps_append_singleton hfollow hexecutes.hline (by rwa [Nat.zero_add])
  have hsent : ∀ {leader i : Nat} {g g' : Frame} {p q : Progress} {line : Line},
      a = .instruction leader i g p → Executes body thisClass i g p line g' q →
      p.Meets (Explained body thisClass initial) → Explained body thisClass initial i g →
      q.Meets (Explained body thisClass initial) := by
    intro leader i g g' p q line hinstruction hexecutes hp hg
    have hsimulated : (p.simulated line g').Meets (Explained body thisClass initial) := hp
    refine hsimulated.propagateAll Explained.join ?_ hexecutes.hjumps
    intro label hlabel
    exact hexplained hinstruction hexecutes hg ⟨line, hexecutes.hline, .inr ⟨label, hlabel, rfl⟩⟩
  cases h with
  | enter hpop hframe => exact ⟨ha, ha _ _ hframe⟩
  | skip hpop hframe => exact ha
  | next hexecutes hfalls hend hnext =>
      obtain ⟨hp, hg⟩ := ha
      exact ⟨hsent rfl hexecutes hp hg,
        hexplained rfl hexecutes hg ⟨_, hexecutes.hline, .inl ⟨hfalls, rfl⟩⟩⟩
  | fall hexecutes hfalls hend hnext harrives =>
      obtain ⟨hp, hg⟩ := ha
      refine (hsent rfl hexecutes hp hg).propagate Explained.join ?_ harrives
      rw [(LabelTable.instruction_of_block? hnext).2]
      exact hexplained rfl hexecutes hg ⟨_, hexecutes.hline, .inl ⟨hfalls, rfl⟩⟩
  | leave hexecutes hstops => exact hsent rfl hexecutes ha.1 ha.2

/-- Every frame of the analysis shows what some path finds. -/
theorem Reaches.explained (hids : body.Numbered) (hsites : initial.SitesIn fun _ _ => False)
    (hinitial : initial.stack.start = 0) {a : Point}
    (h : Reaches body thisClass initial journal a) :
    a.Meets (Explained body thisClass initial) := by
  induction h with
  | start h =>
      have hfresh : (Progress.start body.lines.size initial
          (journal.report (.analysing body.lines.size initial))).Meets
            (Explained body thisClass initial) := by
        intro i f hf
        rw [frame?_start] at hf
        cases hf
      refine hfresh.propagate Explained.join ?_ h
      rw [LabelTable.instruction_start]
      exact ⟨[], initial, .start, rfl, .stemsFrom_self hsites hinitial []⟩
  | step ha hstep ih =>
      refine hstep.explained hids ?_ ih
      rintro leader i f p rfl
      exact ha.sites_ne hids hsites

/-- Along every path, what the analysis shows as an object of one allocation is the object that was
allocated last by it. -/
theorem stemsFrom_of_path (hids : body.Numbered)
    (hsites : initial.SitesIn fun _ _ => False) (hinitial : initial.stack.start = 0)
    (h : ofBody body thisClass initial journal = .ok analysis journal') {passed : List Nat} {i : Nat}
    (hpath : body.Path passed i) :
    ∃ f, body.followSteps thisClass 0 passed initial = .ok f ∧
      (∃ leader g p, Reaches body thisClass initial journal (.instruction leader i g p)) ∧
      ∀ {leader : Nat} {g : Frame} {p : Progress},
        Reaches body thisClass initial journal (.instruction leader i g p) →
        f.Related (StemsFrom passed) g := by
  induction hpath with
  | start =>
      obtain ⟨p₀, g₀, hfirst, hg₀, hrelated⟩ := exists_first h hinitial
      obtain ⟨g, p, hentered⟩ := hfirst.exists_entered h hinitial hg₀
      refine ⟨initial, rfl, ⟨0, g, p, hentered⟩, ?_⟩
      intro leader g p hvisit
      rcases hvisit.instruction_cases with ⟨_, a, ha, hg⟩ | ⟨_, i, _, _, _, hi, _⟩
      · have hshape := hfirst.sameShape h hinitial ha hg₀ hg
        exact ((Frame.Related.stemsFrom_self hsites hinitial []).stemsFrom_trans
          hrelated).stemsFrom_trans hshape.related
      · cases hi
  | @step passed i j _ hflows ih =>
      obtain ⟨f, hfollow, ⟨leader, g, p, hreaches⟩, hstems⟩ := ih
      obtain ⟨line, g', hline, happly, hwhere⟩ := hreaches.flows h hinitial
      have hstep : ∀ {leader : Nat} {g g' : Frame} {p : Progress},
          Reaches body thisClass initial journal (.instruction leader i g p) →
          line.apply thisClass g = .ok g' →
          ∃ f', ({ line with id := passed.length } : Line).apply thisClass f = .ok f' ∧
            f'.Related (StemsFrom (passed ++ [i])) g' := by
        intro leader g g' p hreaches happly
        exact Line.apply_stemsFrom (hids i line hline) (hstems hreaches)
          (hreaches.sites_ne hids hsites) happly
      obtain ⟨f', hf', hstems'⟩ := hstep hreaches happly
      have hfollow' : body.followSteps thisClass 0 (passed ++ [i]) initial = .ok f' :=
        Body.followSteps_append_singleton hfollow hline (by rwa [Nat.zero_add])
      refine ⟨f', hfollow', ?_, ?_⟩
      · rcases hwhere hflows with ⟨rfl, _, q, hnext⟩ | ⟨_, b, recorded, hb, hrecorded, _⟩
        · exact ⟨leader, g', q, hnext⟩
        · obtain ⟨g'', q, hentered⟩ := hb.exists_entered h hinitial hrecorded
          exact ⟨j, g'', q, hentered⟩
      · intro leader' h' p' hvisit
        rcases hvisit.instruction_cases with
          ⟨hstarts, a, ha, hrecorded'⟩ | ⟨hnone, i', line', g₁, q₁, hj, hreaches₁, hline', happly₁⟩
        · rcases hwhere hflows with ⟨_, hnone, _⟩ | ⟨_, b, recorded, hb, hrecorded, hrelated⟩
          · rw [hnone] at hstarts
            cases hstarts
          · have hshape := hb.sameShape h hinitial ha hrecorded hrecorded'
            exact (hstems'.stemsFrom_trans hrelated).stemsFrom_trans hshape.related
        · rcases hwhere hflows with ⟨rfl, _, _⟩ | ⟨hstarts, _⟩
          · cases hj
            rw [hline, Option.some.injEq] at hline'
            subst hline'
            obtain ⟨f₁, hf₁, hstems₁⟩ := hstep hreaches₁ happly₁
            rw [hf', Except.ok.injEq] at hf₁
            exact hf₁ ▸ hstems₁
          · rw [hnone] at hstarts
            cases hstarts

/-- No frame that an instruction is ever applied to holds an object that the same instruction has
allocated, however the analysis ends. Every such frame shows what some path finds, and if the analysis
is successful, it shows what each path to the instruction finds: the slots that show one allocation
hold the one object that was allocated when the path last passed it, and the slots that show an
initialized reference hold no object whose constructor was not called. -/
theorem allocation_unaliased (hids : body.Numbered) (hsites : initial.SitesIn fun _ _ => False) :
    (∀ {leader i : Nat} {g : Frame} {p : Progress},
      Reaches body thisClass initial journal (.instruction leader i g p) →
      g.SitesIn fun _ site => site ≠ i) ∧
    (initial.stack.start = 0 →
      (∀ {leader i : Nat} {g : Frame} {p : Progress},
        Reaches body thisClass initial journal (.instruction leader i g p) →
        ∃ passed f, body.Path passed i ∧ body.followSteps thisClass 0 passed initial = .ok f ∧
          f.Related (StemsFrom passed) g) ∧
      ∀ {analysis : Analysis} {journal' : Journal},
        ofBody body thisClass initial journal = .ok analysis journal' →
        ∀ {passed : List Nat} {i : Nat}, body.Path passed i →
          ∃ f, body.followSteps thisClass 0 passed initial = .ok f ∧
            (∃ leader g p, Reaches body thisClass initial journal (.instruction leader i g p)) ∧
            ∀ {leader : Nat} {g : Frame} {p : Progress},
              Reaches body thisClass initial journal (.instruction leader i g p) →
              f.Related (StemsFrom passed) g) := by
  refine ⟨fun h => h.sites_ne hids hsites, fun hinitial => ⟨?_, ?_⟩⟩
  · intro leader i g p h
    exact (h.explained hids hsites hinitial).2
  · intro analysis journal' h passed i hpath
    exact stemsFrom_of_path hids hsites hinitial h hpath

end Analysis

/-- Each round of a loop allocates an object and leaves it in a local. -/
def Body.allocatingLoop : Body where
  lines := #[
    ⟨0, "new", {}, 0, 0, .operation (.classUse .new (.classRef (.object .javaObject)))⟩,
    ⟨1, "astore_0", {}, 3, 0, .operation (.store .reference 0 .implicit)⟩,
    ⟨2, "goto", {}, 4, 0, .branch (.jump .goto 0)⟩]
  labels := .empty

open Analysis Body in
theorem Analysis.allocation_unaliased_allocatingLoop :
    allocatingLoop.Numbered ∧ Frame.empty.SitesIn (fun _ _ => False) ∧
    ∃ analysis journal f leader g p leader' g' p',
      ofBody allocatingLoop .javaObject .empty {} = .ok analysis journal ∧
      Reaches allocatingLoop .javaObject .empty {} (.instruction leader 0 g p) ∧
      g.SitesIn (fun _ site => site ≠ 0) ∧
      allocatingLoop.Path [0, 1, 2, 0, 1] 2 ∧
      allocatingLoop.followSteps .javaObject 0 [0, 1, 2, 0, 1] .empty = .ok f ∧
      Reaches allocatingLoop .javaObject .empty {} (.instruction leader' 2 g' p') ∧
      f.Related (StemsFrom [0, 1, 2, 0, 1]) g' := by
  have hids : allocatingLoop.Numbered := by
    intro i line h
    obtain ⟨hlt, rfl⟩ := Array.getElem?_eq_some_iff.mp h
    rcases i with _ | _ | _ | i
    · rfl
    · rfl
    · rfl
    · exact absurd hlt (by simp [allocatingLoop])
  have hsites : Frame.empty.SitesIn (fun _ _ => False) :=
    ⟨fun i v hv => by simp [Frame.empty] at hv, fun v hv => by cases hv⟩
  have hsucceeds : Assembly.succeeds (ofBody allocatingLoop .javaObject .empty) {} = true := by
    unfold ofBody
    iterate 2 rw [run_eq]
    decide +kernel
  obtain ⟨analysis, journal, h⟩ := Assembly.exists_of_succeeds hsucceeds
  have hround : ∀ {passed : List Nat}, allocatingLoop.Path passed 0 →
      allocatingLoop.Path (passed ++ [0] ++ [1]) 2 := fun hpath =>
    (hpath.step ⟨_, rfl, .inl ⟨rfl, rfl⟩⟩).step ⟨_, rfl, .inl ⟨rfl, rfl⟩⟩
  have hagain : allocatingLoop.Path [0, 1, 2] 0 :=
    (hround .start).step ⟨_, rfl, .inr ⟨0, List.mem_singleton_self 0, rfl⟩⟩
  obtain ⟨hfresh, hpaths⟩ :=
    @allocation_unaliased allocatingLoop .javaObject .empty {} hids hsites
  obtain ⟨_, hstems⟩ := hpaths rfl
  obtain ⟨_, _, ⟨leader, g, p, hreaches⟩, _⟩ := hstems h .start
  obtain ⟨f, hfollow, ⟨leader', g', p', hreaches'⟩, hrelated⟩ := hstems h (hround hagain)
  exact ⟨hids, hsites, analysis, journal, f, leader, g, p, leader', g', p', h, hreaches,
    hfresh hreaches, hround hagain, hfollow, hreaches', hrelated hreaches'⟩

end JvmAssembler
