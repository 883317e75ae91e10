import Htools.HwtEvents
import Htools.Runs
import Mathlib.Algebra.Ring.Int.Defs

/-!
Several contexts at once. The types that a context has registered are kept in
variables of the files, which each `hwt_create` sets anew. So a context is on its
own, but for the widgets created in it, which takes that no other context has
been created later (`unaffected_iff`).
-/
namespace Htools.Hwt
open Htools.Runs

/-- The contexts by the names that they are created under, and the variables
    `g_type` of the four files. -/
structure World (F : Type) where
  contexts : Nat → Option (HWT F)
  g_type : Types

/-- The calls of a user of several contexts. -/
inductive Call (F : Type) where
  | create
  | free
  | operation (op : Op)
  | set_callback (button : Nat) (callback : Option Nat)
  | send_event (event : HWTEvent F)

section
variable {F : Type}

/-- The state before any context has been created. -/
def World.start : World F := { contexts := fun _ => none, g_type := fun _ => none }

/-- The type that a call creates a widget of. -/
def Call.creates : Call F → Option Kind
  | .operation .button_create => some .button
  | .operation (.grid_create row_num col_num) =>
    if row_num = 0 ∨ 1000 < row_num ∨ col_num = 0 ∨ 1000 < col_num then none else some .grid
  | .operation (.label_create _) => some .label
  | .operation .panel_create => some .panel
  | _ => none

/-- A context that has been created and not freed. -/
def Ready (world : World F) (name : Nat) : Prop :=
  ∃ hwt, world.contexts name = some hwt ∧ hwt.freed = false

/-- The context that was created last. -/
def latest : List (Nat × Call F) → Option Nat
  | [] => none
  | (name,.create) :: rest => (latest rest).or (some name)
  | _ :: rest => latest rest

/-- What is left of a context, or why the call does not return. -/
def outcome (name : Nat) (result : Except Stop (World F)) : Except Stop (Option (HWT F)) :=
  (fun world => world.contexts name) <$> result

variable [Zero F] [Add F] [Sub F] [Div F] [NatCast F] [LT F] [LE F] [DecidableLT F] [DecidableLE F]

/-- A call on a context, which has the name that it was created under to itself. -/
def used (g_type : Types) (hwt : HWT F) : Call F → Except Stop (HWT F)
  | .create => .error .fault
  | .free => hwt_free hwt
  | .operation op => step g_type hwt op
  | .set_callback button callback =>
    if Live hwt.memory button then do
      let m ← hwt_button_set_callback hwt.memory button callback
      .ok { hwt with memory := m }
    else .error .fault
  | .send_event event => do
    let m ← hwt_send_event hwt.memory event
    .ok { hwt with memory := m }

/-- A call with the name of the context that it is on. -/
def call (world : World F) : Nat × Call F → Except Stop (World F)
  | (name,c) =>
    match world.contexts name, c with
    | none, .create =>
      let (hwt,g_type) := hwt_create name world.g_type
      .ok { contexts := Function.update world.contexts name (some hwt), g_type := g_type }
    | none, _ => .error .fault
    | some hwt, c =>
      if hwt.freed then .error .fault
      else do
        let hwt ← used world.g_type hwt c
        .ok { world with contexts := Function.update world.contexts name (some hwt) }

/-- Each call of a run has the outcome that it has after the calls on its own
    context alone, and where it is to create a widget, it does. -/
def Unaffected (calls : List (Nat × Call F)) : Prop :=
  ∀ done name c rest world, calls = done ++ (name,c) :: rest → steps call World.start done = .ok world →
    (∃ alone, steps call World.start (done.filter fun other => other.1 = name) = .ok alone ∧
      outcome name (call world (name,c)) = outcome name (call alone (name,c))) ∧
    (Ready world name → c.creates ≠ none → ∃ next, call world (name,c) = .ok next)

/-- Widgets are created in the context that was created last. -/
def Newest (calls : List (Nat × Call F)) : Prop :=
  ∀ done name c rest world, calls = done ++ (name,c) :: rest → steps call World.start done = .ok world →
    Ready world name → c.creates ≠ none → latest done = some name

end

section
variable {F : Type} [Zero F] {g_type other_types : Types} {hwt after : HWT F} {c : Call F} {kind : Kind} {name : Nat}

/-- The values of the variables after a context has been created. -/
def types (name : Nat) : Types := fun kind => some ⟨name,kind⟩

/-- The types that are registered in a context. -/
def registered (name : Nat) : List HWTWidgetType := [⟨name,.button⟩,⟨name,.grid⟩,⟨name,.label⟩,⟨name,.panel⟩]

omit [Zero F] in
theorem hwt_create_types (name : Nat) (old : Types) : (hwt_create (F := F) name old).2 = types name := by
  funext kind
  cases kind <;> rfl

omit [Zero F] in
theorem hwt_create_same (name : Nat) (old new : Types) : (hwt_create (F := F) name old).1 = (hwt_create name new).1 := rfl

theorem mem_registered_iff {other : Nat} : (⟨other,kind⟩ : HWTWidgetType) ∈ registered name ↔ other = name := by
  cases kind <;> simp [registered]

theorem hwt_widget_create_types {a_type : Option HWTWidgetType} :
    (∃ created, hwt_widget_create hwt a_type = .ok created) ↔ ∃ type ∈ hwt.type_list, a_type = some type := by
  simp only [hwt_widget_create]
  cases found : hwt.type_list.find? fun type => a_type = some type with
  | none =>
    refine iff_of_false (fun ⟨_,run⟩ => nomatch run) fun ⟨type,member,same⟩ => ?_
    exact List.find?_eq_none.mp found type member (by simpa using same)
  | some type =>
    exact iff_of_true ⟨_,rfl⟩ ⟨type,List.mem_of_find?_eq_some found,by simpa using List.find?_some found⟩

variable [Add F] [Sub F] [Div F] [NatCast F] [LT F] [LE F] [DecidableLT F] [DecidableLE F]

/-- A call looks at the variable of the type that it creates a widget of and at no other. -/
theorem used_types (same : ∀ kind, c.creates = some kind → g_type kind = other_types kind) :
    used g_type hwt c = used other_types hwt c := by
  cases c with
  | operation op =>
    have performed : perform g_type hwt op = perform other_types hwt op := by
      cases op with
      | button_create => simp only [perform,hwt_button_create,same .button rfl]
      | grid_create row_num col_num =>
        simp only [perform,hwt_grid_create]
        by_cases range : row_num = 0 ∨ 1000 < row_num ∨ col_num = 0 ∨ 1000 < col_num
        · rw [if_pos range,if_pos range]
        · rw [if_neg range,if_neg range,same .grid (if_neg range)]
      | label_create text => simp only [perform,hwt_label_create,same .label rfl]
      | panel_create => simp only [perform,hwt_panel_create,same .panel rfl]
      | _ => rfl
    simp only [used,step,performed]
  | _ => rfl

/-- A call that creates a widget returns where `hwt_widget_create` does. -/
theorem used_creates_iff (creates : c.creates = some kind) :
    (∃ after, used g_type hwt c = .ok after) ↔ ∃ created, hwt_widget_create hwt (g_type kind) = .ok created := by
  cases c with
  | operation op =>
    cases op with
    | button_create =>
      cases creates
      cases run : hwt_widget_create hwt (g_type .button) <;> simp [used,step,Op.widgets,perform,hwt_button_create,run,
        bind,Except.bind,Functor.map,Except.map]
    | grid_create row_num col_num =>
      simp only [Call.creates] at creates
      split at creates
      · cases creates
      · rename_i range
        cases creates
        cases run : hwt_widget_create hwt (g_type .grid) <;> simp [used,step,Op.widgets,perform,hwt_grid_create,if_neg range,
          run,bind,Except.bind,Functor.map,Except.map]
    | label_create text =>
      cases creates
      cases run : hwt_widget_create hwt (g_type .label) <;> simp [used,step,Op.widgets,perform,hwt_label_create,run,
        bind,Except.bind,Functor.map,Except.map]
    | panel_create =>
      cases creates
      cases run : hwt_widget_create hwt (g_type .panel) <;> simp [used,step,Op.widgets,perform,hwt_panel_create,run,
        bind,Except.bind,Functor.map,Except.map]
    | _ => cases creates
  | _ => cases creates

/-- In a context with the types of its own a widget is created where the variable
    is of that context. -/
theorem used_registered_iff (creates : c.creates = some kind) (own : hwt.type_list = registered name) {latest : Nat}
    (set : g_type = types latest) : (∃ after, used g_type hwt c = .ok after) ↔ latest = name := by
  rw [used_creates_iff creates,hwt_widget_create_types,own,set]
  constructor
  · rintro ⟨type,member,same⟩
    cases same
    exact mem_registered_iff.mp member
  · rintro rfl
    exact ⟨⟨latest,kind⟩,mem_registered_iff.mpr rfl,rfl⟩

/-- No call but the last one changes the types of a context. -/
theorem used_keeps (run : used g_type hwt c = .ok after) : after.freed = true ∨ after.type_list = hwt.type_list := by
  cases c with
  | create => cases run
  | free =>
    obtain ⟨m,_,rest⟩ := bind_ok_iff.mp run
    cases rest
    exact .inl rfl
  | operation op =>
    right
    simp only [used,step] at run
    split at run
    · obtain ⟨m,_,rest⟩ := bind_ok_iff.mp run
      cases rest
      rfl
    · cases run
  | set_callback button callback =>
    right
    simp only [used] at run
    split at run
    · obtain ⟨m,_,rest⟩ := bind_ok_iff.mp run
      cases rest
      rfl
    · cases run
  | send_event event =>
    right
    obtain ⟨m,_,rest⟩ := bind_ok_iff.mp run
    cases rest
    rfl

/-! ### A context on its own -/

/-- The state in a run of several contexts and in that of one of them. -/
structure Related (name : Nat) (world alone : World F) : Prop where
  same : alone.contexts name = world.contexts name
  own : ∀ hwt, world.contexts name = some hwt → alone.g_type = types name
  set : ∀ hwt, world.contexts name = some hwt → ∃ latest, world.g_type = types latest
  registered : ∀ hwt, world.contexts name = some hwt → hwt.freed = false → hwt.type_list = registered name

variable {world alone next : World F}

omit [Zero F] [Add F] [Sub F] [Div F] [NatCast F] [LT F] [LE F] [DecidableLT F] [DecidableLE F] in
theorem related_start : Related name (World.start : World F) World.start := by
  refine ⟨rfl,?_,?_,?_⟩ <;> intro hwt here <;> cases here

/-- The cases of a call that returns. -/
theorem call_ok_iff : call world (name,c) = .ok next ↔
    (world.contexts name = none ∧ c = .create ∧
      next = ⟨Function.update world.contexts name (some (hwt_create name world.g_type).1),types name⟩) ∨
    ∃ hwt after, world.contexts name = some hwt ∧ hwt.freed = false ∧ used world.g_type hwt c = .ok after ∧
      next = ⟨Function.update world.contexts name (some after),world.g_type⟩ := by
  cases there : world.contexts name with
  | none =>
    cases c with
    | create => simp [call,there,hwt_create_types,@eq_comm _ next]
    | _ => simp [call,there]
  | some hwt =>
    cases freed : hwt.freed with
    | true => simp [call,there,freed]
    | false =>
      cases run : used world.g_type hwt c with
      | error stop => simp [call,there,freed,run,bind,Except.bind]
      | ok after => simp [call,there,freed,run,bind,Except.bind,@eq_comm _ next]

/-- A call that creates a widget in a context that is in use looks at the same
    variable if it returns. -/
theorem Related.used (related : Related name world alone) {hwt after : HWT F} (there : world.contexts name = some hwt)
    (ready : hwt.freed = false) (run : used world.g_type hwt c = .ok after) : used alone.g_type hwt c = .ok after := by
  obtain ⟨latest,set⟩ := related.set hwt there
  rw [← run]
  refine used_types fun kind creates => ?_
  have newest := (used_registered_iff creates (related.registered hwt there ready) set).mp ⟨after,run⟩
  rw [related.own hwt there,set,newest]

theorem related_mine (related : Related name world alone) (run : call world (name,c) = .ok next) :
    ∃ single, call alone (name,c) = .ok single ∧ Related name next single := by
  simp only [call_ok_iff] at run ⊢
  rcases run with ⟨new,rfl,rfl⟩ | ⟨hwt,after,there,ready,ran,rfl⟩
  · refine ⟨_,.inl ⟨related.same.trans new,rfl,rfl⟩,?_⟩
    refine ⟨by simp [hwt_create_same name alone.g_type world.g_type],fun _ _ => rfl,fun _ _ => ⟨name,rfl⟩,
      fun hwt here _ => ?_⟩
    simp only [Function.update_self] at here
    cases here
    rfl
  · refine ⟨_,.inr ⟨hwt,after,related.same.trans there,ready,related.used there ready ran,rfl⟩,?_⟩
    refine ⟨by simp,fun _ _ => related.own hwt there,fun _ _ => related.set hwt there,fun later here freed => ?_⟩
    simp only [Function.update_self] at here
    cases here
    rcases used_keeps ran with ended | kept
    · rw [ended] at freed
      cases freed
    · rw [kept]
      exact related.registered hwt there ready

theorem related_other (related : Related name world alone) {other : Nat} (apart : name ≠ other)
    (run : call world (other,c) = .ok next) : Related name next alone := by
  rw [call_ok_iff] at run
  rcases run with ⟨_,_,rfl⟩ | ⟨_,_,_,_,_,rfl⟩
  · refine ⟨?_,?_,?_,?_⟩ <;> simp only [Function.update_of_ne apart]
    · exact related.same
    · exact related.own
    · exact fun _ _ => ⟨other,rfl⟩
    · exact related.registered
  · refine ⟨?_,?_,?_,?_⟩ <;> simp only [Function.update_of_ne apart]
    · exact related.same
    · exact related.own
    · exact related.set
    · exact related.registered

/-- The calls on the context alone make a run, which comes to the same context. -/
theorem related_run (name : Nat) {done : List (Nat × Call F)} (run : steps call World.start done = .ok world) :
    ∃ alone, steps call World.start (done.filter fun other => other.1 = name) = .ok alone ∧ Related name world alone := by
  refine steps_filter (R := Related name) ?_ ?_ related_start run
  · rintro world alone ⟨other,c⟩ next related mine first
    obtain rfl := of_decide_eq_true mine
    exact related_mine related first
  · rintro world alone ⟨other,c⟩ next related others first
    exact related_other related (fun same => others (decide_eq_true same.symm)) first

/-- The variables are of the context that was created last. -/
theorem steps_types {done : List (Nat × Call F)} (run : steps call world done = .ok next) :
    next.g_type = ((latest done).map types).getD world.g_type := by
  induction done generalizing world with
  | nil =>
    cases run
    rfl
  | cons first rest ih =>
    obtain ⟨mid,one,later⟩ := steps_cons_iff.mp run
    obtain ⟨other,c⟩ := first
    rw [ih later]
    rw [call_ok_iff] at one
    rcases one with ⟨_,rfl,rfl⟩ | ⟨_,_,_,_,ran,rfl⟩
    · simp only [latest]
      cases latest rest <;> rfl
    · cases c with
      | create => cases ran
      | _ => rfl

/-- In a context that is not in use a call does the same whatever the variables are. -/
theorem outcome_idle (same : alone.contexts name = world.contexts name) (idle : ¬Ready world name) :
    outcome name (call world (name,c)) = outcome name (call alone (name,c)) := by
  cases there : world.contexts name with
  | none =>
    rw [there] at same
    cases c with
    | create =>
      simp only [outcome,call,there,same,hwt_create_same name world.g_type alone.g_type,Functor.map,Except.map,
        Function.update_self]
    | _ => simp only [outcome,call,there,same]
  | some hwt =>
    rw [there] at same
    cases freed : hwt.freed with
    | true => simp only [outcome,call,there,same,freed,if_pos trivial]
    | false => exact absurd ⟨hwt,there,freed⟩ idle

theorem outcome_used {hwt : HWT F} (there : world.contexts name = some hwt) (ready : hwt.freed = false) :
    outcome name (call world (name,c)) = some <$> used world.g_type hwt c := by
  simp only [outcome,call,there,ready]
  cases used world.g_type hwt c <;> simp [bind,Except.bind,Functor.map,Except.map]

/-- After the calls so far, a call has the same outcome for its context alone
    exactly if it creates a widget in the newest context or none at all. -/
theorem call_outcome_iff (related : Related name world alone) {done : List (Nat × Call F)}
    (run : steps call World.start done = .ok world) :
    (outcome name (call world (name,c)) = outcome name (call alone (name,c)) ∧
      (Ready world name → c.creates ≠ none → ∃ next, call world (name,c) = .ok next)) ↔
    (Ready world name → c.creates ≠ none → latest done = some name) := by
  by_cases ready : Ready world name
  · obtain ⟨hwt,there,unfreed⟩ := ready
    have here : alone.contexts name = some hwt := related.same.trans there
    rw [outcome_used there unfreed,outcome_used here unfreed]
    have in_use : Ready world name := ⟨hwt,there,unfreed⟩
    cases creates : c.creates with
    | none =>
      rw [used_types fun kind other => nomatch creates.symm.trans other]
      exact iff_of_true ⟨rfl,fun _ some_kind => absurd rfl some_kind⟩ fun _ some_kind => absurd rfl some_kind
    | some kind =>
      obtain ⟨newest,set⟩ := related.set hwt there
      have made := used_registered_iff creates (related.registered hwt there unfreed) set
      have last : latest done = some newest := by
        have kept := steps_types run
        rw [set] at kept
        cases last : latest done with
        | none =>
          rw [last] at kept
          cases congrFun kept .button
        | some other =>
          rw [last] at kept
          cases congrFun kept .button
          rfl
      rw [last,Option.some.injEq]
      constructor
      · rintro ⟨_,returns⟩ _ _
        obtain ⟨next,ran⟩ := returns in_use nofun
        rw [call_ok_iff] at ran
        rcases ran with ⟨new,_⟩ | ⟨other,after,there',_,ran,_⟩
        · rw [there] at new
          cases new
        · cases there.symm.trans there'
          exact made.mp ⟨after,ran⟩
      · intro condition
        have own : newest = name := condition in_use nofun
        obtain ⟨after,ran⟩ := made.mpr own
        rw [ran,related.used there unfreed ran]
        exact ⟨rfl,fun _ _ => ⟨_,call_ok_iff.mpr (.inr ⟨hwt,after,there,unfreed,ran,rfl⟩)⟩⟩
  · exact iff_of_true ⟨outcome_idle related.same ready,fun in_use => absurd in_use ready⟩ fun in_use => absurd in_use ready

/-- The calls on each context have the outcome that they have without those on the
    others exactly in the runs that create widgets in the newest context only. -/
theorem unaffected_iff (calls : List (Nat × Call F)) : Unaffected calls ↔ Newest calls := by
  constructor
  · intro unaffected done name c rest world split run
    obtain ⟨⟨alone,run',same⟩,creates⟩ := unaffected done name c rest world split run
    obtain ⟨alone',run'',related⟩ := related_run name run
    cases run'.symm.trans run''
    exact (call_outcome_iff related run).mp ⟨same,creates⟩
  · intro newest done name c rest world split run
    obtain ⟨alone,run',related⟩ := related_run name run
    obtain ⟨same,creates⟩ := (call_outcome_iff related run).mpr (newest done name c rest world split run)
    exact ⟨⟨alone,run',same⟩,creates⟩

/-- With a second context created, no panel is created in the first one any more. -/
theorem unaffected_fails : ¬Unaffected (F := Int) [(0,.create),(1,.create),(0,.operation .panel_create)] ∧
    (∃ world, steps call (World.start : World Int) [(0,.create),(1,.create)] = .ok world ∧
      call world (0,.operation .panel_create) = .error .abort) ∧
    ∃ alone next, steps call (World.start : World Int) [(0,.create)] = .ok alone ∧
      call alone (0,.operation .panel_create) = .ok next := by
  refine ⟨fun unaffected => ?_,⟨_,rfl,rfl⟩,⟨_,_,rfl,rfl⟩⟩
  obtain ⟨next,run⟩ := (unaffected [(0,.create),(1,.create)] 0 (.operation .panel_create) [] _ rfl rfl).2 ⟨_,rfl,rfl⟩ nofun
  cases run

end

end Htools.Hwt
