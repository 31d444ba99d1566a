/-
SoundSequencer.Proofs.Histories — the acts of a run, one after the other.

* A `History` goes through acts, between which nothing happens to the voices. It is `Orderly` if
  every tick begins when the upkeep of the last one is done.
* Every call has a history, in which mutes take place at one rate
  (`Session.exists_history_perform`). Every run has an orderly history
  (`Session.exists_history`), also from a command of it to a later one
  (`exists_history_between`).
-/
import SoundSequencer.Proofs.VoiceActs

namespace SoundSequencer

namespace Engine

variable {σ : Type} [SoundChip σ]

/-! ## Histories -/

/-- The acts of a list, each with the engine in which it takes place, lead from one engine to
the other; between them nothing happens to the voices. -/
inductive History : Engine σ → List (Engine σ × Act) → Engine σ → Prop
  | rest {a b : Engine σ} : Calm a b → History a [] b
  | step {a d b : Engine σ} {x : Act} {l : List (Engine σ × Act)} :
    Calm a d → History (d.act x) l b → History a ((d, x) :: l) b

/-- Every tick begins when the upkeep of the last one, `due` or not at first, is done. -/
def Orderly : (due : Bool) → List (Engine σ × Act) → Prop
  | _, [] => True
  | due, (_, .tick) :: l => due = false ∧ Orderly true l
  | _, (_, .upkeep) :: l => Orderly false l
  | due, (_, _) :: l => Orderly due l

namespace History

variable {a b c d : Engine σ} {x : Act} {l l' : List (Engine σ × Act)}

theorem after (hcalm : Calm a b) (h : History b l c) : History a l c := by
  cases h with
  | rest hrest => exact .rest (hcalm.trans hrest)
  | step hfirst hrest => exact .step (hcalm.trans hfirst) hrest

theorem append (h : History a l b) (h' : History b l' c) : History a (l ++ l') c := by
  induction h with
  | rest hcalm => exact h'.after hcalm
  | step hcalm _ ih => exact .step hcalm (ih h')

/-- A history can be interrupted anywhere. -/
theorem split : ∀ {l : List (Engine σ × Act)} {a : Engine σ}, History a (l ++ l') b →
    ∃ c, History a l c ∧ History c l' b
  | [], a, h => ⟨a, .rest (.refl a), h⟩
  | _ :: _, _, .step hcalm h => by
    obtain ⟨c, hl, hl'⟩ := h.split
    exact ⟨c, .step hcalm hl, hl'⟩

end History

omit [SoundChip σ] in
theorem Orderly.append_inner {due : Bool} {l' : List (Engine σ × Act)} :
    ∀ {l : List (Engine σ × Act)}, (∀ p ∈ l, p.2.isInner = true) → Orderly due l' →
      Orderly due (l ++ l')
  | [], _, h => h
  | (d, x) :: l, hinner, h => by
    have hrest : Orderly due (l ++ l') :=
      append_inner (fun p hp => hinner p (List.mem_cons_of_mem _ hp)) h
    have hx := hinner (d, x) List.mem_cons_self
    cases x with
    | tick | upkeep => cases hx
    | play | endNote | fade => exact hrest

omit [SoundChip σ] in
/-- Both parts of an orderly history are orderly. -/
theorem Orderly.split {l l' : List (Engine σ × Act)} {due : Bool} (h : Orderly due (l ++ l')) :
    Orderly due l ∧ ∃ due, Orderly due l' := by
  induction l generalizing due with
  | nil => exact ⟨trivial, due, h⟩
  | cons p l ih =>
    obtain ⟨d, x⟩ := p
    cases x with
    | tick => exact ⟨⟨h.1, (ih h.2).1⟩, (ih h.2).2⟩
    | upkeep => exact @ih false h
    | play | endNote | fade => exact @ih due h

/-- Mutes take place at one rate in all of a list of acts. -/
def MutesAt (rate : UInt8) (l : List (Engine σ × Act)) : Prop := ∀ p ∈ l, p.1.muteRate = rate

/-- What steps of calls lead to has a history. -/
theorem Stirred.exists_history {a b : Engine σ} (h : Stirred a b) :
    ∃ l, History a l b ∧ (∀ p ∈ l, p.2.isInner = true) ∧ MutesAt a.muteRate l := by
  induction h using Relation.ReflTransGen.head_induction_on with
  | refl =>
    exact ⟨[], .rest (.refl b), fun _ hp => (List.not_mem_nil hp).elim,
      fun _ hp => (List.not_mem_nil hp).elim⟩
  | @head a d hstep _ ih =>
    obtain ⟨l, hl, hinner, hmutes⟩ := ih
    cases hstep with
    | inert hinert => exact ⟨l, hl.after hinert.toCalm, hinner, hinert.muteRate ▸ hmutes⟩
    | @act x hx =>
      rw [muteRate_act] at hmutes
      exact ⟨(a, x) :: l, .step (.refl a) hl, List.forall_mem_cons.mpr ⟨hx, hinner⟩,
        List.forall_mem_cons.mpr ⟨rfl, hmutes⟩⟩

/-- A tick begins, the tracks have their turns, and the voices their upkeep. -/
theorem exists_history_tick (e : Engine σ) {l' : List (Engine σ × Act)}
    (horderly : Orderly false l') :
    ∃ l, History e l e.tick ∧ Orderly false (l ++ l') ∧ MutesAt e.muteRate l := by
  have hstirred := stirred_beforeUpkeep e
  obtain ⟨l, hl, hinner, hmutes⟩ := hstirred.exists_history
  have hupkeep : History e.beforeUpkeep [(e.beforeUpkeep, .upkeep)] e.tick := by
    rw [tick_eq]
    exact .step (.refl _) (.rest (.refl _))
  have hrate := muteRate_act e .tick
  refine ⟨(e, .tick) :: (l ++ [(e.beforeUpkeep, .upkeep)]),
    .step (.refl e) (hl.append hupkeep), ?_, List.forall_mem_cons.mpr ⟨rfl, fun p hp => ?_⟩⟩
  · rw [List.cons_append, List.append_assoc]
    exact ⟨rfl, Orderly.append_inner hinner horderly⟩
  · rcases List.mem_append.mp hp with hp | hp
    · exact (hmutes p hp).trans hrate
    · rw [List.mem_singleton.mp hp]
      exact hstirred.muteRate.trans hrate

/-! ## From command to command -/

/-- Some acts lead from one engine to the other. -/
def Leads (a b : Engine σ) : Prop := ∃ l, History a l b

namespace Leads

variable {a b c : Engine σ}

theorem refl (a : Engine σ) : Leads a a := ⟨[], .rest (.refl a)⟩

theorem trans (hab : Leads a b) (hbc : Leads b c) : Leads a c := by
  obtain ⟨l, hl⟩ := hab
  obtain ⟨l', hl'⟩ := hbc
  exact ⟨l ++ l', hl.append hl'⟩

end Leads

theorem Stirred.leads {a b : Engine σ} (h : Stirred a b) : Leads a b := by
  obtain ⟨l, hl, -⟩ := h.exists_history
  exact ⟨l, hl⟩

theorem Inert.leads {a b : Engine σ} (h : Inert a b) : Leads a b := h.stirred.leads

theorem leads_act (e : Engine σ) (x : Act) : Leads e (e.act x) :=
  ⟨[(e, x)], .step (.refl e) (.rest (.refl _))⟩

/-- A way from one engine to the other through the commands in a list, with acts from each to
the next. -/
inductive Way : Engine σ → List (Engine σ × Nat) → Engine σ → Prop
  | rest {a b : Engine σ} : Leads a b → Way a [] b
  | step {a d b : Engine σ} {i : Nat} {l : List (Engine σ × Nat)} :
    Leads a d → Way (d.obey i) l b → Way a ((d, i) :: l) b

namespace Way

variable {a b c d d' : Engine σ} {i i' : Nat} {l l' : List (Engine σ × Nat)}

theorem after (hleads : Leads a b) (h : Way b l c) : Way a l c := by
  cases h with
  | rest hrest => exact .rest (hleads.trans hrest)
  | step hfirst hrest => exact .step (hleads.trans hfirst) hrest

theorem append (h : Way a l b) (h' : Way b l' c) : Way a (l ++ l') c := by
  induction h with
  | rest hleads => exact h'.after hleads
  | step hleads _ ih => exact .step hleads (ih h')

/-- The way to a command on the way is full of acts. -/
theorem leads (h : Way a l b) {n : Nat} (hn : l[n]? = some (d, i)) : Leads a d := by
  induction h generalizing n with
  | rest => cases hn
  | step hleads _ ih =>
    cases n with
    | zero =>
      cases hn
      exact hleads
    | succ n => exact hleads.trans ((stirred_obey _ _).leads.trans (ih hn))

/-- So is the way from one command to a later one. -/
theorem leads_between (h : Way a l b) {n m : Nat} (hn : l[n]? = some (d, i))
    (hm : l[m]? = some (d', i')) (hlt : n < m) : Leads (d.obey i) d' := by
  induction h generalizing n m with
  | rest => cases hn
  | step _ hrest ih =>
    cases m with
    | zero => exact absurd hlt (Nat.not_lt_zero n)
    | succ m =>
      cases n with
      | zero =>
        cases hn
        exact hrest.leads hm
      | succ n => exact ih hn hm (Nat.lt_of_succ_lt_succ hlt)

end Way

theorem way_runDue (i : Nat) : ∀ (budget : Nat) (e : Engine σ),
    Way e ((dueSteps i budget e).map (·, i)) (runDue budget e i)
  | 0, e => by
    refine .rest ?_
    unfold runDue
    split
    · exact (stirred_turnOff e i).leads
    · exact .refl e
  | budget + 1, e => by
    unfold dueSteps runDue
    split
    · exact .step (inert_modifyTrack e i _).leads
        ((way_runDue i budget _).after (stirred_stepTrack _ i).leads)
    · exact .rest (.refl e)

theorem way_runTrack (e : Engine σ) (i : Nat) :
    Way e ((e.turnSteps i).map (·, i)) (e.runTrack i) := by
  have hadvanced : Leads e (e.modifyTrack i Track.advance) := (inert_modifyTrack e i _).leads
  unfold turnSteps runTrack
  dsimp only
  split
  · exact .rest (hadvanced.trans (stirred_turnOff _ i).leads)
  · exact (way_runDue i _ _).after hadvanced

theorem way_runPool : ∀ (l : List Nat) (e : Engine σ), Way e (poolSteps l e) (e.runPool l)
  | [], e => .rest (.refl e)
  | i :: l, e => by
    unfold poolSteps runPool
    rw [List.foldl_cons]
    split
    · exact (way_runTrack e i).append (way_runPool l _)
    · exact way_runPool l e

theorem way_tick (e : Engine σ) : Way e e.executions e.tick := by
  have hturns : Way e.beforeTracks e.executions e.beforeUpkeep := by
    rw [beforeUpkeep_eq_beforeTracks]
    unfold executions
    split
    · exact .rest (.refl _)
    · exact way_runPool _ _
  have hupkeep : Way e.beforeUpkeep [] e.tick := by
    rw [tick_eq]
    exact .rest (leads_act _ .upkeep)
  rw [← List.append_nil e.executions]
  exact (hturns.append hupkeep).after (leads_act e .tick)

end Engine

namespace Session

open Engine

variable {σ : Type} [SoundChip σ]

/-- Every call has a history, in which mutes take place at the rate that was set before. -/
theorem exists_history_perform (s : Session σ) (call : Call σ) {l' : List (Engine σ × Act)}
    (horderly : Orderly false l') :
    ∃ l, History s.engine l (s.perform call).engine ∧ Orderly false (l ++ l') ∧
      MutesAt s.engine.muteRate l := by
  cases htick : call.isTick with
  | true =>
    obtain rfl := Call.eq_tick htick
    rw [engine_tick]
    exact exists_history_tick s.engine horderly
  | false =>
    by_cases hmute : ∃ ms, call = .setMuteRelease ms
    · obtain ⟨ms, rfl⟩ := hmute
      exact ⟨[], .rest ⟨rfl, rfl, rfl⟩, horderly, fun _ hp => (List.not_mem_nil hp).elim⟩
    · have hstirred := stirred_perform s htick fun ms h => hmute ⟨ms, h⟩
      obtain ⟨l, hl, hinner, hmutes⟩ := hstirred.exists_history
      exact ⟨l, hl, Orderly.append_inner hinner horderly, hmutes⟩

/-- Every run has a history. -/
theorem exists_history : ∀ (calls : List (Call σ)) (s : Session σ),
    ∃ l, History s.engine l (s.run calls).engine ∧ Orderly false l
  | [], s => ⟨[], .rest (.refl s.engine), trivial⟩
  | call :: calls, s => by
    obtain ⟨l', hl', horderly⟩ := exists_history calls (s.perform call)
    obtain ⟨l, hl, hboth, -⟩ := exists_history_perform s call horderly
    exact ⟨l ++ l', hl.append hl', hboth⟩

theorem way_run : ∀ (calls : List (Call σ)) (s : Session σ),
    Way s.engine (s.executions calls) (s.run calls).engine
  | [], s => .rest (.refl s.engine)
  | call :: calls, s => by
    have hrest := way_run calls (s.perform call)
    unfold executions
    cases htick : call.isTick with
    | true =>
      obtain rfl := Call.eq_tick htick
      rw [engine_tick] at hrest
      rw [run_cons]
      exact (way_tick s.engine).append hrest
    | false =>
      obtain ⟨l, hl, -⟩ := @exists_history_perform _ _ s call [] trivial
      exact hrest.after ⟨l, hl⟩

/-- There is a history from a command of a run to a later one. -/
theorem exists_history_between {s : Session σ} {calls : List (Call σ)} {d d' : Engine σ}
    {n m i i' : Nat} (hn : (s.executions calls)[n]? = some (d, i))
    (hm : (s.executions calls)[m]? = some (d', i')) (hlt : n < m) :
    ∃ l, History (d.obey i) l d' := (way_run calls s).leads_between hn hm hlt

end Session

end SoundSequencer
