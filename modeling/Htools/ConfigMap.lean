import Htools.ConfigMade
import Htools.Keyed
import Htools.Runs

/-!
Collections as maps. A program gets sections and values by their names and sets values
by the pointers it has got; only `load` and the look-up before every new element keep
the names apart, and with them apart a collection is a map of maps (`requests_map`).
-/
namespace Htools.ConfigFile
open Htools.Lexing Htools.Runs Htools.Keyed

/-! ### Calls -/

/-- What a value is set to. -/
inductive Value (D : Type) where
  | d (a_d : D)
  | i32 (a_i32 : Int32)
  | str (a_str : List Int8)
  deriving DecidableEq, Repr

/-- Sections and values are given by their places, for the pointers. -/
inductive Request (D : Type) where
  | get_section (a_name : List Int8)
  | section_get (section_ : Nat) (a_name : List Int8) (a_default_value : Value D)
  | set (section_ config : Nat) (value : Value D)
  deriving DecidableEq, Repr

/-- What a call returns. -/
inductive Pointer where
  | nothing
  | section_ (i : Nat)
  | config (i j : Nat)
  deriving DecidableEq, Repr

section
variable {D : Type} (doubles : Doubles D) (to_int32 : D → Int32) (percent_g : D → List Int8)

/-- `%g` prints less than 24 characters. -/
def config_setd (a_config : Config D) (a_d : D) : Config D :=
  { a_config with type := .d, d := a_d, i32 := to_int32 a_d, str := some (percent_g a_d) }

def config_section_getd (a_section : ConfigSection D) (a_name : List Int8) (a_default_value : D) : ConfigSection D × Nat :=
  config_section_get doubles (fun config => config_setd to_int32 percent_g config a_default_value) a_section a_name

/-- `config_setd`, `config_seti32` and `config_sets`. -/
def config_set (a_config : Config D) : Value D → Config D
  | .d a_d => config_setd to_int32 percent_g a_config a_d
  | .i32 a_i32 => config_seti32 doubles a_config a_i32
  | .str a_str => config_sets doubles a_config a_str

/-- `config_section_getd`, `config_section_geti32` and `config_section_gets`. -/
def config_section_get_value (a_section : ConfigSection D) (a_name : List Int8) : Value D → ConfigSection D × Nat
  | .d a_default_value => config_section_getd doubles to_int32 percent_g a_section a_name a_default_value
  | .i32 a_default_value => config_section_geti32 doubles a_section a_name a_default_value
  | .str a_default_value => config_section_gets doubles a_section a_name a_default_value

/-- A call; there is a fault where a pointer is none of the collection. -/
def request (coll : ConfigCollection D) : Request D → Except Stop (ConfigCollection D × Pointer)
  | .get_section a_name =>
    let (coll,section_) := config_collection_get_section coll a_name
    .ok (coll,.section_ section_)
  | .section_get section_ a_name a_default_value =>
    match coll[section_]? with
    | none => .error .fault
    | some s =>
      let (s,config) := config_section_get_value doubles to_int32 percent_g s a_name a_default_value
      .ok (coll.set section_ s,.config section_ config)
  | .set section_ config value =>
    match coll[section_]? with
    | none => .error .fault
    | some s =>
      match s.config_list[config]? with
      | none => .error .fault
      | some c =>
        let c := config_set doubles to_int32 percent_g c value
        .ok (coll.set section_ { s with config_list := s.config_list.set config c },.nothing)

/-- A program that forgets what the calls return. -/
def request_step (coll : ConfigCollection D) (r : Request D) : Except Stop (ConfigCollection D) :=
  (request doubles to_int32 percent_g coll r).map Prod.fst

end

/-! ### Maps of maps -/

/-- What the names give: sections, and in them values. -/
abbrev Store (D : Type) := List Int8 → Option (List Int8 → Option (Config D))

section
variable {D : Type}

def Store.get_section (m : Store D) (name : List Int8) : Store D :=
  Function.update m name (some ((m name).getD fun _ => none))

def Store.put (m : Store D) (section_ name : List Int8) (c : Config D) : Store D :=
  Function.update m section_ ((m section_).map fun e => Function.update e name (some c))

def values_of (s : ConfigSection D) : List Int8 → Option (Config D) := lookup (·.name) s.config_list

def store_of (coll : ConfigCollection D) : Store D := fun name => (lookup (·.name) coll name).map values_of

/-- The value has been set. -/
def Holds (c : Config D) : Value D → Prop
  | .d a_d => c.type = .d ∧ config_getd c = a_d
  | .i32 a_i32 => c.type = .i32 ∧ config_geti32 c = a_i32
  | .str a_str => c.type = .str ∧ config_gets c = some (c_str a_str)

/-- The pointers of a call are of the collection. -/
def Points (coll : ConfigCollection D) : Request D → Prop
  | .get_section _ => True
  | .section_get i _ _ => i < coll.length
  | .set i j _ => ∃ s, coll[i]? = some s ∧ j < s.config_list.length

/-- What a call makes of a collection, and what it returns: a name that is there is
    given as it is, another one is put at the end, and one value is set. -/
inductive Acts (coll : ConfigCollection D) : Request D → ConfigCollection D → Pointer → Prop where
  | section_there {a_name i s} : coll[i]? = some s → s.name = c_str a_name →
    Acts coll (.get_section a_name) coll (.section_ i)
  | section_new {a_name} : store_of coll (c_str a_name) = none →
    Acts coll (.get_section a_name) (coll ++ [⟨c_str a_name,[]⟩]) (.section_ coll.length)
  | config_there {i j a_name v s c} : coll[i]? = some s → s.config_list[j]? = some c → c.name = c_str a_name →
    Acts coll (.section_get i a_name v) coll (.config i j)
  | config_new {i a_name v s c} : coll[i]? = some s → values_of s (c_str a_name) = none → c.name = c_str a_name → Holds c v →
    Acts coll (.section_get i a_name v) (coll.set i { s with config_list := s.config_list ++ [c] })
      (.config i s.config_list.length)
  | set {i j v s old c} : coll[i]? = some s → s.config_list[j]? = some old → c.name = old.name → Holds c v →
    Acts coll (.set i j v) (coll.set i { s with config_list := s.config_list.set j c }) .nothing

/-- What a call makes of the map. -/
def Maps (coll coll' : ConfigCollection D) : Request D → Prop
  | .get_section a_name => store_of coll' = (store_of coll).get_section (c_str a_name)
  | .section_get i a_name v => ∃ s c, coll[i]? = some s ∧ store_of coll' = (store_of coll).put s.name (c_str a_name) c ∧
    match values_of s (c_str a_name) with
    | some old => c = old
    | none => Holds c v
  | .set i j v => ∃ s old c, coll[i]? = some s ∧ s.config_list[j]? = some old ∧ Holds c v ∧
    store_of coll' = (store_of coll).put s.name old.name c

/-! ### One call -/

section
variable {doubles : Doubles D} {to_int32 : D → Int32} {percent_g : D → List Int8} {coll coll' : ConfigCollection D}
  {r : Request D} {p : Pointer} {s : ConfigSection D} {c old : Config D} {i j : Nat} {a_name : List Int8}

theorem config_set_name (a_config : Config D) (value : Value D) :
    (config_set doubles to_int32 percent_g a_config value).name = a_config.name := by
  cases value with
  | d a_d => rfl
  | i32 a_i32 => rfl
  | str a_str => exact (sets_sets a_str).name a_config

theorem config_set_holds (a_config : Config D) (value : Value D) :
    Holds (config_set doubles to_int32 percent_g a_config value) value := by
  cases value with
  | d a_d => exact ⟨rfl,rfl⟩
  | i32 a_i32 => exact ⟨rfl,rfl⟩
  | str a_str =>
    rw [Holds,config_set,config_sets,config_gets]
    split <;> exact ⟨rfl,rfl⟩

theorem get_section_ensure (a_name : List Int8) :
    config_collection_get_section coll a_name = ensure (·.name) coll ⟨c_str a_name,[]⟩ := by
  rw [config_collection_get_section,get_section,ensure,place]
  cases coll.findIdx? fun section_ => section_.name = c_str a_name <;> rfl

/-- The three functions put the same name at the end. -/
theorem section_get_ensure (s : ConfigSection D) (a_name : List Int8) (v : Value D) :
    ∃ c, c.name = c_str a_name ∧ Holds c v ∧ config_section_get_value doubles to_int32 percent_g s a_name v =
      ({ s with config_list := (ensure (·.name) s.config_list c).1 },(ensure (·.name) s.config_list c).2) := by
  have name : (config_set doubles to_int32 percent_g (create_config doubles a_name) v).name = c_str a_name :=
    config_set_name _ v
  refine ⟨_,name,config_set_holds _ v,?_⟩
  have main : config_section_get_value doubles to_int32 percent_g s a_name v = config_section_get doubles
      (fun config => config_set doubles to_int32 percent_g config v) s a_name := by
    cases v <;> rfl
  rw [main,config_section_get,config_index,ensure,place,name]
  cases s.config_list.findIdx? fun config => config.name = c_str a_name <;> rfl

theorem request_returns_iff (r : Request D) :
    (∃ coll' p, request doubles to_int32 percent_g coll r = .ok (coll',p)) ↔ Points coll r := by
  cases r with
  | get_section a_name => exact iff_of_true ⟨_,_,rfl⟩ trivial
  | section_get i a_name v =>
    rw [request,Points]
    cases at_ : coll[i]? with
    | none => exact iff_of_false (by rintro ⟨_,_,⟨⟩⟩) (Nat.not_lt.mpr (List.getElem?_eq_none_iff.mp at_))
    | some s => exact iff_of_true ⟨_,_,rfl⟩ (List.getElem?_eq_some_iff.mp at_).1
  | set i j v =>
    rw [request,Points]
    cases at_ : coll[i]? with
    | none => exact iff_of_false (by rintro ⟨_,_,⟨⟩⟩) (by rintro ⟨_,⟨⟩,_⟩)
    | some s =>
      simp only [Option.some.injEq,exists_eq_left']
      cases inner : s.config_list[j]? with
      | none => exact iff_of_false (by rintro ⟨_,_,⟨⟩⟩) (Nat.not_lt.mpr (List.getElem?_eq_none_iff.mp inner))
      | some c => exact iff_of_true ⟨_,_,rfl⟩ (List.getElem?_eq_some_iff.mp inner).1

theorem request_acts (run : request doubles to_int32 percent_g coll r = .ok (coll',p)) : Acts coll r coll' p := by
  cases r with
  | get_section a_name =>
    rw [request,get_section_ensure] at run
    rcases @ensure_cases _ _ _ (fun s : ConfigSection D => s.name) coll ⟨c_str a_name,[]⟩ with
      ⟨i,s,is,at_,name,_⟩ | ⟨is,absent⟩
    · rw [is] at run
      cases run
      exact .section_there at_ name
    · rw [is] at run
      cases run
      exact .section_new (by rw [store_of,absent]; rfl)
  | section_get i a_name v =>
    rw [request] at run
    cases at_ : coll[i]? with
    | none =>
      rw [at_] at run
      cases run
    | some s =>
      obtain ⟨c,name,holds,is⟩ := @section_get_ensure D doubles to_int32 percent_g s a_name v
      rw [at_] at run
      simp only [is] at run
      rcases @ensure_cases _ _ _ (fun c : Config D => c.name) s.config_list c with ⟨j,old,is,inner,same,_⟩ | ⟨is,absent⟩
      · rw [is] at run
        cases run
        obtain ⟨inside,rfl⟩ := List.getElem?_eq_some_iff.mp at_
        rw [List.set_getElem_self]
        exact .config_there at_ inner (same.trans name)
      · rw [is] at run
        cases run
        exact .config_new at_ (name ▸ absent) name holds
  | set i j v =>
    rw [request] at run
    cases at_ : coll[i]? with
    | none =>
      rw [at_] at run
      cases run
    | some s =>
      rw [at_] at run
      simp only at run
      cases inner : s.config_list[j]? with
      | none =>
        rw [inner] at run
        cases run
      | some c =>
        rw [inner] at run
        cases run
        exact .set at_ inner (config_set_name c v) (config_set_holds c v)

/-! ### The map -/

theorem store_at (apart : Apart coll) (at_ : coll[i]? = some s) : store_of coll s.name = some (values_of s) := by
  rw [store_of,(lookup_some_iff apart.1).mpr ⟨List.mem_of_getElem? at_,rfl⟩]
  rfl

theorem store_set {s' : ConfigSection D} (apart : Apart coll) (at_ : coll[i]? = some s) (same : s'.name = s.name) :
    store_of (coll.set i s') = Function.update (store_of coll) s.name (some (values_of s')) := by
  funext name
  rw [store_of,lookup_set apart.1 at_ same]
  by_cases is : name = s.name
  · rw [is,Function.update_self,Function.update_self]
    rfl
  · rw [Function.update_of_ne is,Function.update_of_ne is]
    rfl

theorem apart_set {s' : ConfigSection D} (apart : Apart coll) (at_ : coll[i]? = some s) (same : s'.name = s.name)
    (inner : OnePerKey (·.name) s'.config_list) : Apart (coll.set i s') := by
  refine ⟨distinct_set apart.1 at_ same,fun other there => ?_⟩
  rcases List.mem_or_eq_of_mem_set there with old | rfl
  · exact apart.2 other old
  · exact inner

/-- A section with another value under a name. -/
theorem store_put {s' : ConfigSection D} {name : List Int8} (apart : Apart coll) (at_ : coll[i]? = some s)
    (same : s'.name = s.name) (values : values_of s' = Function.update (values_of s) name (some c)) :
    store_of (coll.set i s') = (store_of coll).put s.name name c := by
  rw [store_set apart at_ same,Store.put,store_at apart at_,values]
  rfl

theorem acts_apart (apart : Apart coll) (acts : Acts coll r coll' p) : Apart coll' := by
  cases acts with
  | section_there _ _ => exact apart
  | section_new absent =>
    rw [store_of,Option.map_eq_none_iff] at absent
    refine ⟨distinct_new apart.1 absent,fun s there => ?_⟩
    rcases List.mem_append.mp there with old | last
    · exact apart.2 s old
    · rw [List.mem_singleton.mp last]
      exact List.nodup_nil
  | config_there _ _ _ => exact apart
  | config_new at_ absent name _ =>
    refine apart_set apart at_ rfl (distinct_new (apart.2 _ (List.mem_of_getElem? at_)) ?_)
    rw [name]
    exact absent
  | set at_ inner name _ =>
    exact apart_set apart at_ rfl (distinct_set (apart.2 _ (List.mem_of_getElem? at_)) inner name)

/-- With the names apart a call does with the map what it does with the list. -/
theorem acts_maps (apart : Apart coll) (acts : Acts coll r coll' p) : Maps coll coll' r := by
  cases acts with
  | section_there at_ name =>
    rw [Maps,Store.get_section,← name,store_at apart at_]
    exact (Function.update_eq_self_iff.mpr (store_at apart at_).symm).symm
  | @section_new a_name absent =>
    have none_ := absent
    rw [store_of,Option.map_eq_none_iff] at none_
    rw [Maps,Store.get_section,absent]
    funext name
    rw [store_of,lookup_new none_]
    by_cases is : name = c_str a_name
    · subst is
      rw [Function.update_self,Function.update_self]
      rfl
    · rw [Function.update_of_ne is,Function.update_of_ne is]
      rfl
  | @config_there i j a_name v s c at_ inner name =>
    have found : values_of s (c_str a_name) = some c :=
      (lookup_some_iff (apart.2 s (List.mem_of_getElem? at_))).mpr ⟨List.mem_of_getElem? inner,name⟩
    refine ⟨s,c,at_,?_,by rw [found]⟩
    have same : Function.update (values_of s) (c_str a_name) (some c) = values_of s := Function.update_eq_self_iff.mpr found.symm
    rw [Store.put,store_at apart at_,Option.map_some,same]
    exact (Function.update_eq_self_iff.mpr (store_at apart at_).symm).symm
  | @config_new i a_name v s c at_ absent name holds =>
    refine ⟨s,c,at_,store_put apart at_ rfl ?_,by rw [absent]; exact holds⟩
    rw [← name] at absent ⊢
    exact lookup_new absent
  | @set i j v s old c at_ inner name holds =>
    refine ⟨s,old,c,at_,inner,holds,store_put apart at_ rfl ?_⟩
    exact lookup_set (apart.2 s (List.mem_of_getElem? at_)) inner name

/-! ### Runs -/

theorem requests_apart {loaded : ConfigCollection D} {requests : List (Request D)} (start : Loaded doubles loaded)
    (reached : Reached (request_step doubles to_int32 percent_g) loaded requests coll) : Apart coll := by
  refine reached_keeps (I := Apart) (fun coll r coll' apart run => ?_) ?_ reached
  · obtain ⟨⟨_,p⟩,called,rfl⟩ := map_ok_iff.mp run
    exact acts_apart apart (request_acts called)
  · have sound := start.sound
    exact ⟨sound.apart,fun s there => (sound.sections s there).apart⟩

/-- Whatever calls come after a successful load, the names of a collection are apart, and
    every call for which there are pointers acts on the list and maps the map of maps. -/
theorem requests_map {loaded : ConfigCollection D} {requests : List (Request D)} (start : Loaded doubles loaded)
    (reached : Reached (request_step doubles to_int32 percent_g) loaded requests coll) :
    Apart coll ∧ ∀ r, ((∃ coll' p, request doubles to_int32 percent_g coll r = .ok (coll',p)) ↔ Points coll r) ∧
      ∀ coll' p, request doubles to_int32 percent_g coll r = .ok (coll',p) → Acts coll r coll' p ∧ Maps coll coll' r := by
  have apart := requests_apart start reached
  refine ⟨apart,fun r => ⟨request_returns_iff r,fun coll' p run => ?_⟩⟩
  have acts := request_acts run
  exact ⟨acts,acts_maps apart acts⟩

def numbers : Doubles Nat := ⟨fun _ => 0,fun _ => 0⟩

/-- A section `a` with the value `b=1`. -/
def one_value : ConfigCollection Nat := [⟨[97],[⟨[98],.i32,0,1,some [49]⟩]⟩]

/-- A missing file, and a value that is not there. -/
theorem requests_map_one : Loaded numbers [] ∧
    Reached (request_step numbers (fun _ => 0) fun _ => []) [] [.get_section [97],.section_get 0 [98] (.i32 1)] one_value ∧
    Apart one_value ∧
      ∀ r, ((∃ coll' p, request numbers (fun _ => 0) (fun _ => []) one_value r = .ok (coll',p)) ↔ Points one_value r) ∧
        ∀ coll' p, request numbers (fun _ => 0) (fun _ => []) one_value r = .ok (coll',p) →
          Acts one_value r coll' p ∧ Maps one_value coll' r := by
  have start : Loaded numbers [] := .file (fun _ _ => 0) none ⟨0,rfl⟩
  have reached : Reached (request_step numbers (fun _ => 0) fun _ => []) [] [.get_section [97],.section_get 0 [98] (.i32 1)]
      one_value := ⟨[.get_section [97],.section_get 0 [98] (.i32 1)],[],rfl,by decide⟩
  exact ⟨start,reached,requests_map start reached⟩

end

end

end Htools.ConfigFile
