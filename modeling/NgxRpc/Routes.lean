import Mathlib.Data.List.Find
import Mathlib.Data.List.Nodup
import NgxRpc.Header
import NgxRpc.Text

/-!
# The routes of the methods

The generated modules register every method under two route strings, and the main module
puts these into a hash table of nginx when the configuration has been read. nginx stores
a key in lower case; the handler of a request hashes its URI in lower case as well, but
then looks for the URI as it is.

## Main definitions

- `ProtoMethod` — a method, its names, and what is registered for it
- `NgxHash` — the hash tables of nginx
- `postconfiguration`, `httpHandler` — registration and lookup
- `RoutesReachable` — every route leads to its own method, and nothing else to any

## Main results

- `route_inj` — a route determines the names of its method
- `routesReachable_iff` — the methods that are reachable
-/

namespace NgxRpc

/-- `ngx_strlow`. -/
def strlow (s : List UInt8) : List UInt8 := s.map asciiLower

/-- An ASCII letter in upper case. -/
def IsUpper (c : UInt8) : Prop := 65 ≤ c ∧ c ≤ 90

instance : DecidablePred IsUpper := fun c => inferInstanceAs (Decidable (65 ≤ c ∧ c ≤ 90))

theorem asciiLower_eq_iff (c : UInt8) : asciiLower c = c ↔ ¬IsUpper c := by
  have h : ∀ i : Fin 256, asciiLower (.ofFin i) = .ofFin i ↔ ¬IsUpper (.ofFin i) := by
    decide +kernel
  exact h c.toFin

theorem asciiLower_asciiLower (c : UInt8) : asciiLower (asciiLower c) = asciiLower c := by
  have h : ∀ i : Fin 256, asciiLower (asciiLower (.ofFin i)) = asciiLower (.ofFin i) := by
    decide +kernel
  exact h c.toFin

@[simp] theorem strlow_strlow (s : List UInt8) : strlow (strlow s) = strlow s := by
  simp [strlow, asciiLower_asciiLower]

theorem strlow_eq_iff (s : List UInt8) : strlow s = s ↔ ∀ c ∈ s, ¬IsUpper c := by
  have hmap : s.map asciiLower = s.map id ↔ _ := List.map_inj_left
  rw [List.map_id] at hmap
  rw [strlow, hmap]
  simp only [id, asciiLower_eq_iff]

/-! ## Names -/

def dot : UInt8 := 46
def slash : UInt8 := 47

def IsDigit (c : UInt8) : Prop := 48 ≤ c ∧ c ≤ 57

instance : DecidablePred IsDigit := fun c => inferInstanceAs (Decidable (48 ≤ c ∧ c ≤ 57))

/-- A letter, a digit or an underscore. -/
def IsWord (c : UInt8) : Prop := 97 ≤ c ∧ c ≤ 122 ∨ IsUpper c ∨ IsDigit c ∨ c = 95

instance : DecidablePred IsWord := fun c =>
  inferInstanceAs (Decidable (97 ≤ c ∧ c ≤ 122 ∨ IsUpper c ∨ IsDigit c ∨ c = 95))

/-- Letters, digits and underscores, the first one not a digit. -/
def IsIdentifier (s : List UInt8) : Prop :=
  s ≠ [] ∧ (∀ c ∈ s, IsWord c) ∧ ∀ c ∈ s.head?, ¬IsDigit c

instance : DecidablePred IsIdentifier := fun s =>
  inferInstanceAs (Decidable (s ≠ [] ∧ (∀ c ∈ s, IsWord c) ∧ ∀ c ∈ s.head?, ¬IsDigit c))

/-- An identifier of a proto file. -/
structure Identifier where
  bytes : List UInt8
  ok : IsIdentifier bytes

theorem Identifier.ext_bytes {a b : Identifier} (h : a.bytes = b.bytes) : a = b := by
  cases a
  cases b
  cases h
  rfl

theorem Identifier.dot_notMem (s : Identifier) : dot ∉ s.bytes := fun h =>
  absurd (s.ok.2.1 dot h) (by decide)

theorem Identifier.slash_notMem (s : Identifier) : slash ∉ s.bytes := fun h =>
  absurd (s.ok.2.1 slash h) (by decide)

/-- The name of a package. -/
def dotted : List Identifier → List UInt8
  | [] => []
  | [id] => id.bytes
  | id :: ids => id.bytes ++ dot :: dotted ids

theorem slash_notMem_dotted (package : List Identifier) : slash ∉ dotted package := by
  induction package with
  | nil => simp [dotted]
  | cons id ids ih =>
    cases ids with
    | nil => exact id.slash_notMem
    | cons id' ids =>
      have hne : slash ≠ dot := by decide
      simp [dotted, id.slash_notMem, hne, ih]

theorem dotted_ne_nil (id : Identifier) (ids : List Identifier) : dotted (id :: ids) ≠ [] := by
  cases ids with
  | nil => exact id.ok.1
  | cons id' ids => simp [dotted]

/-- The name of a package has its components in it. -/
theorem dotted_inj {ids ids' : List Identifier} (h : dotted ids = dotted ids') : ids = ids' := by
  induction ids generalizing ids' with
  | nil =>
    cases ids' with
    | nil => rfl
    | cons id' ids' => exact absurd h.symm (dotted_ne_nil id' ids')
  | cons id ids ih =>
    cases ids' with
    | nil => exact absurd h (dotted_ne_nil id ids)
    | cons id' ids' =>
      cases ids with
      | nil =>
        cases ids' with
        | nil => rw [Identifier.ext_bytes h]
        | cons k ks =>
          have hdot : dot ∈ id.bytes := by
            rw [show id.bytes = _ from h]
            simp [dotted]
          exact absurd hdot id.dot_notMem
      | cons j js =>
        cases ids' with
        | nil =>
          have hdot : dot ∈ id'.bytes := by
            rw [← show _ = id'.bytes from h]
            simp [dotted]
          exact absurd hdot id'.dot_notMem
        | cons k ks =>
          obtain ⟨hid, hids⟩ := Search.append_sep_inj_left h id.dot_notMem id'.dot_notMem
          rw [Identifier.ext_bytes hid, ih hids]

/-- `PROTO_NAMEPATH`. -/
def namePath (package : List UInt8) : List UInt8 :=
  (replace (package.length + 1) package [dot] [slash]).get
    (by rw [replace_eq_some (by simp) (Nat.lt_succ_self _)]; rfl)

theorem namePath_eq (package : List UInt8) :
    namePath package = package.map fun c => if c = dot then slash else c := by
  simp only [namePath, replace_eq_some (List.cons_ne_nil dot []) (Nat.lt_succ_self package.length),
    Option.get_some, Search.replaced_singleton]

theorem dot_notMem_namePath (package : List UInt8) : dot ∉ namePath package := by
  rw [namePath_eq]
  intro h
  obtain ⟨c, -, hc⟩ := List.mem_map.mp h
  split at hc
  · exact absurd hc (by decide)
  · contradiction

/-- The path has the name of the package in it, when that has no slash. -/
theorem namePath_inj {package package' : List UInt8} (h : slash ∉ package)
    (h' : slash ∉ package') (he : namePath package = namePath package') : package = package' := by
  have hback : ∀ p : List UInt8, slash ∉ p →
      (namePath p).map (fun c => if c = slash then dot else c) = p := by
    intro p hp
    rw [namePath_eq, List.map_map]
    refine (List.map_congr_left fun c hc => ?_).trans (List.map_id p)
    have hne : c ≠ slash := fun heq => hp (heq ▸ hc)
    by_cases hdot : c = dot
    · simp [hdot]
    · simp [hdot, hne]
  rw [← hback package h, he, hback package' h']

section Program

variable {H I : Type}

/-- A method of a service, and the values its module registers: the generated handler and
the object that implements the service. -/
structure ProtoMethod (H I : Type) where
  package : List Identifier
  service : Identifier
  name : Identifier
  handler : H
  impl : I

/-- `method_conf_t`. -/
structure MethodConf (H I : Type) where
  name : List UInt8
  impl : I
  handler : H
deriving DecidableEq

namespace ProtoMethod

def fullName (m : ProtoMethod H I) : List UInt8 × List UInt8 × List UInt8 :=
  (dotted m.package, m.service.bytes, m.name.bytes)

/-- The route string with separator `sep`. -/
def route (sep : UInt8) (m : ProtoMethod H I) : List UInt8 :=
  slash :: (namePath (dotted m.package) ++ sep :: m.service.bytes) ++ sep :: m.name.bytes

/-- `NGX_RPC_SET_SERVER_METHOD_ITEM`. -/
def confs (m : ProtoMethod H I) : List (MethodConf H I) :=
  [⟨m.route slash, m.impl, m.handler⟩, ⟨m.route dot, m.impl, m.handler⟩]

/-- No name of the method has an upper-case letter. -/
def LowerCase (m : ProtoMethod H I) : Prop :=
  ∀ c ∈ dotted m.package ++ m.service.bytes ++ m.name.bytes, ¬IsUpper c

variable {m m' : ProtoMethod H I} {sep sep' : UInt8}

theorem dot_mem_route_iff : dot ∈ m.route sep ↔ sep = dot := by
  have hpath := dot_notMem_namePath (dotted m.package)
  have hservice := m.service.dot_notMem
  have hname := m.name.dot_notMem
  have hne : dot ≠ slash := by decide
  simp only [route, List.cons_append, List.mem_cons, List.mem_append, hpath, hservice, hname, hne,
    or_false, false_or, or_self, eq_comm]

theorem sep_notMem (hsep : sep = slash ∨ sep = dot) (s : Identifier) : sep ∉ s.bytes := by
  obtain rfl | rfl := hsep
  · exact s.slash_notMem
  · exact s.dot_notMem

/-- A route determines its form and the names of its method. -/
theorem route_inj (hsep : sep = slash ∨ sep = dot) (hsep' : sep' = slash ∨ sep' = dot)
    (h : m.route sep = m'.route sep') : sep = sep' ∧ m.fullName = m'.fullName := by
  have hdot : sep = dot ↔ sep' = dot := by
    rw [← dot_mem_route_iff, h, dot_mem_route_iff]
  have heq : sep = sep' := by
    obtain rfl | rfl := hsep
    · obtain rfl | rfl := hsep'
      · rfl
      · exact hdot.mpr rfl
    · exact (hdot.mp rfl).symm
  subst heq
  obtain ⟨hfront, hname⟩ := Search.append_sep_inj h (sep_notMem hsep _) (sep_notMem hsep _)
  obtain ⟨hpath, hservice⟩ := Search.append_sep_inj (List.cons.inj hfront).2 (sep_notMem hsep _)
    (sep_notMem hsep _)
  have hpackage := namePath_inj (slash_notMem_dotted _) (slash_notMem_dotted _) hpath
  exact ⟨rfl, by rw [fullName, fullName, hpackage, hservice, hname]⟩

/-- The package, by its components, the service and the method. -/
def triple (m : ProtoMethod H I) : List Identifier × Identifier × Identifier :=
  (m.package, m.service, m.name)

theorem fullName_eq_iff : m.fullName = m'.fullName ↔ m.triple = m'.triple := by
  constructor
  · intro h
    obtain ⟨hpackage, hrest⟩ := Prod.mk.inj h
    obtain ⟨hservice, hname⟩ := Prod.mk.inj hrest
    rw [triple, triple, dotted_inj hpackage, Identifier.ext_bytes hservice,
      Identifier.ext_bytes hname]
  · intro h
    obtain ⟨hpackage, hrest⟩ := Prod.mk.inj h
    obtain ⟨hservice, hname⟩ := Prod.mk.inj hrest
    rw [fullName, fullName, hpackage, hservice, hname]

theorem route_eq_iff (hsep : sep = slash ∨ sep = dot) :
    m.route sep = m'.route sep ↔ m.triple = m'.triple := by
  rw [← fullName_eq_iff]
  constructor
  · exact fun h => (route_inj hsep hsep h).2
  · intro h
    obtain ⟨hpackage, hrest⟩ := Prod.mk.inj h
    obtain ⟨hservice, hname⟩ := Prod.mk.inj hrest
    rw [route, route, hpackage, hservice, hname]

/-- The two forms of a route are those of one method each, and no route has both forms. -/
theorem routes_distinct (m m' : ProtoMethod H I) :
    (m.route slash = m'.route slash ↔ m.triple = m'.triple) ∧
      (m.route dot = m'.route dot ↔ m.triple = m'.triple) ∧
        m.route slash ≠ m'.route dot ∧ m.route dot ≠ m'.route slash := by
  have hne : slash ≠ dot := by decide
  refine ⟨route_eq_iff (Or.inl rfl), route_eq_iff (Or.inr rfl), ?_, ?_⟩
  · exact fun h => hne (route_inj (Or.inl rfl) (Or.inr rfl) h).1
  · exact fun h => hne (route_inj (Or.inr rfl) (Or.inl rfl) h).1.symm

/-- A route is in lower case when the names are. -/
theorem strlow_route_iff (hsep : sep = slash ∨ sep = dot) :
    strlow (m.route sep) = m.route sep ↔ m.LowerCase := by
  have hslash : ¬IsUpper slash := by decide
  have hdot : ¬IsUpper dot := by decide
  have hsepUpper : ¬IsUpper sep := by
    obtain rfl | rfl := hsep
    · exact hslash
    · exact hdot
  have hpath : (∀ c ∈ namePath (dotted m.package), ¬IsUpper c) ↔
      ∀ c ∈ dotted m.package, ¬IsUpper c := by
    rw [namePath_eq, List.forall_mem_map]
    refine forall₂_congr fun c _ => ?_
    split
    · next hc => simp [hc, hslash, hdot]
    · rfl
  rw [strlow_eq_iff]
  simp only [route, LowerCase, List.cons_append, List.forall_mem_cons, List.forall_mem_append,
    hslash, hsepUpper, hpath, not_false_eq_true, true_and, and_assoc]

end ProtoMethod

/-! ## Registration and lookup -/

/-- `ngx_hash_key_t`. -/
structure HashKey (V : Type) where
  key : List UInt8
  keyHash : ℕ
  value : V

/-- The hash tables of nginx: `ngx_hash_key_lc`, `ngx_hash_init`, which may fail, and
`ngx_hash_find`. -/
structure NgxHash (V : Type) where
  Table : Type
  keyLc : List UInt8 → ℕ
  init : List (HashKey V) → Option Table
  find : Table → ℕ → List UInt8 → Option V

/-- What nginx documents: the hash is that of the lower-cased bytes; a table stores every key
lower-cased in the bucket of its hash, in order; a lookup returns the first entry of the
bucket with exactly the bytes looked for. -/
structure NgxHash.Lawful {V : Type} (N : NgxHash V) : Prop where
  keyLc_strlow : ∀ s, N.keyLc (strlow s) = N.keyLc s
  init_find : ∀ keys, ∃ table, N.init keys = some table ∧ ∃ bucket : ℕ → ℕ, ∀ hash name,
    N.find table hash name =
      ((keys.filter fun k => bucket k.keyHash = bucket hash).find? fun k =>
        strlow k.key = name).map HashKey.value

variable (N : NgxHash (MethodConf H I))

/-- `ngx_http_rpc_postconfiguration` on `method_array`, and the table it makes; `none` for
`NGX_ERROR`. `pushed` says whether there was room for the handler among those of the content
phase. -/
def postconfiguration (pushed : Bool) (methodArray : List (MethodConf H I)) : Option N.Table :=
  match N.init (methodArray.map fun method => ⟨method.name, N.keyLc method.name, method⟩) with
  | none => none
  | some methodHash => if pushed then some methodHash else none

/-- `ngx_http_rpc_conf_t`, as far as a request uses it: whether there is a `proc_queue`, and
`method_hash`. -/
structure RpcConf (Table : Type) where
  procQueue : Bool
  methodHash : Table

/-- What `ngx_http_rpc_http_handler` returns, and the method in the rpc context of the
request afterwards. -/
structure Handled (H I : Type) where
  rc : ℤ
  method : Option (MethodConf H I)
deriving DecidableEq

/-- A request with method `mth`, whose context is allocated unless the memory has run out. -/
def Handled.taken (room : Bool) (mth : MethodConf H I) : Handled H I :=
  if room then ⟨-2, some mth⟩ else ⟨500, none⟩

/-- A request with URI `uri`; `rpcCtx` is the method in its context, if it has one already,
and `room` says whether a context can be allocated. -/
def httpHandler (rpcConf : Option (RpcConf N.Table)) (room : Bool)
    (rpcCtx : Option (MethodConf H I)) (uri : List UInt8) : Handled H I :=
  match rpcConf with
  | none => ⟨500, rpcCtx⟩
  | some conf =>
    if conf.procQueue then
      match N.find conf.methodHash (N.keyLc uri) uri with
      | none => ⟨-5, rpcCtx⟩
      | some mth =>
        match rpcCtx with
        | none => .taken room mth
        | some m => ⟨-2, some m⟩
    else ⟨500, rpcCtx⟩

/-- A new request whose URI is a route gets the method the route was registered for, and one
whose URI is no route, whatever the case of the letters, is declined. -/
def RoutesReachable (methodHash : N.Table) (methods : List (ProtoMethod H I)) : Prop :=
  (∀ m ∈ methods, ∀ c ∈ m.confs, ∀ room, ∃ mth ∈ m.confs,
    httpHandler N (some ⟨true, methodHash⟩) room none c.name = .taken room mth) ∧
  ∀ uri, (∀ m ∈ methods, ∀ c ∈ m.confs, strlow c.name ≠ strlow uri) →
    ∀ room, httpHandler N (some ⟨true, methodHash⟩) room none uri = ⟨-5, none⟩

variable {N} {pushed : Bool} {methodArray : List (MethodConf H I)} {methodHash : N.Table}

/-- A lookup finds the first method whose lower-cased route is the URI. -/
theorem find_eq (hN : N.Lawful) (hconf : postconfiguration N pushed methodArray = some methodHash)
    (uri : List UInt8) : N.find methodHash (N.keyLc uri) uri =
      methodArray.find? fun method => strlow method.name = uri := by
  obtain ⟨table, hinit, bucket, hfind⟩ := hN.init_find
    (methodArray.map fun method => ⟨method.name, N.keyLc method.name, method⟩)
  obtain rfl : table = methodHash := by
    simp only [postconfiguration, hinit] at hconf
    split at hconf
    · exact Option.some.inj hconf
    · cases hconf
  have hbucket : ∀ method ∈ methodArray,
      decide (decide (bucket (N.keyLc method.name) = bucket (N.keyLc uri)) = true ∧
        decide (strlow method.name = uri) = true) = decide (strlow method.name = uri) := by
    intro method _
    by_cases hname : strlow method.name = uri
    · simp [← hname, hN.keyLc_strlow]
    · simp [hname]
  rw [hfind, List.find?_filter, List.find?_map, Option.map_map]
  refine (congrArg _ (List.find?_congr hbucket)).trans ?_
  exact congrFun Option.map_id _

section Methods

variable {methods : List (ProtoMethod H I)} {m : ProtoMethod H I} {c : MethodConf H I}

theorem ProtoMethod.mem_confs_iff : c ∈ m.confs ↔
    ∃ sep, (sep = slash ∨ sep = dot) ∧ c = ⟨m.route sep, m.impl, m.handler⟩ := by
  simp [confs, or_and_right, exists_or]

/-- What a new request gets, in terms of the registered methods. -/
theorem httpHandler_eq (hN : N.Lawful)
    (hconf : postconfiguration N pushed (methods.flatMap ProtoMethod.confs) = some methodHash)
    (room : Bool) (uri : List UInt8) :
    httpHandler N (some ⟨true, methodHash⟩) room none uri =
      ((methods.flatMap ProtoMethod.confs).find? fun c => strlow c.name = uri).elim ⟨-5, none⟩
        (Handled.taken room) := by
  simp only [httpHandler, if_true, find_eq hN hconf]
  split
  · next hnone => rw [hnone, Option.elim_none]
  · next mth hsome => rw [hsome, Option.elim_some]

/-- A URI that is no route, whatever its case, is declined. -/
theorem httpHandler_declined (hN : N.Lawful)
    (hconf : postconfiguration N pushed (methods.flatMap ProtoMethod.confs) = some methodHash)
    {uri : List UInt8} (huri : ∀ m ∈ methods, ∀ c ∈ m.confs, strlow c.name ≠ strlow uri)
    (room : Bool) : httpHandler N (some ⟨true, methodHash⟩) room none uri = ⟨-5, none⟩ := by
  have hnone : (methods.flatMap ProtoMethod.confs).find? (fun c => strlow c.name = uri) = none := by
    rw [List.find?_eq_none]
    intro c hc hname
    obtain ⟨m, hm, hcm⟩ := List.mem_flatMap.mp hc
    apply huri m hm c hcm
    rw [← of_decide_eq_true hname, strlow_strlow]
  rw [httpHandler_eq hN hconf, hnone, Option.elim_none]

/-- A method that is found by one of its routes has names in lower case. -/
theorem RoutesReachable.lowerCase (hN : N.Lawful)
    (hconf : postconfiguration N pushed (methods.flatMap ProtoMethod.confs) = some methodHash)
    (h : RoutesReachable N methodHash methods) (hm : m ∈ methods) : m.LowerCase := by
  have hslash : (⟨m.route slash, m.impl, m.handler⟩ : MethodConf H I) ∈ m.confs := by
    simp [ProtoMethod.confs]
  obtain ⟨mth, -, hmth⟩ := h.1 m hm _ hslash true
  rw [httpHandler_eq hN hconf] at hmth
  cases hfind : (methods.flatMap ProtoMethod.confs).find?
      (fun c => strlow c.name = m.route slash) with
  | none => simp [hfind, Handled.taken] at hmth
  | some mth' =>
    -- the stored key is in lower case, so the route that equals it is
    have hname : strlow mth'.name = m.route slash := by simpa using List.find?_some hfind
    apply (ProtoMethod.strlow_route_iff (Or.inl rfl)).mp
    rw [← hname, strlow_strlow]

/-- When all names are in lower case, every route finds its own method. -/
theorem httpHandler_route (hN : N.Lawful)
    (hconf : postconfiguration N pushed (methods.flatMap ProtoMethod.confs) = some methodHash)
    (hdistinct : (methods.map ProtoMethod.fullName).Nodup) (hlower : ∀ m ∈ methods, m.LowerCase)
    (hm : m ∈ methods) (hc : c ∈ m.confs) (room : Bool) :
    httpHandler N (some ⟨true, methodHash⟩) room none c.name = .taken room c := by
  obtain ⟨sep, hsep, rfl⟩ := ProtoMethod.mem_confs_iff.mp hc
  have hroute := (ProtoMethod.strlow_route_iff hsep).mpr (hlower m hm)
  rw [httpHandler_eq hN hconf]
  cases hfind : (methods.flatMap ProtoMethod.confs).find?
      (fun c => strlow c.name = m.route sep) with
  | none =>
    have hnot := List.find?_eq_none.mp hfind _ (List.mem_flatMap.mpr ⟨m, hm, hc⟩)
    simp [hroute] at hnot
  | some mth =>
    obtain ⟨m', hm', hmth⟩ := List.mem_flatMap.mp (List.mem_of_find?_eq_some hfind)
    obtain ⟨sep', hsep', rfl⟩ := ProtoMethod.mem_confs_iff.mp hmth
    have hname : strlow (m'.route sep') = m.route sep := by simpa using List.find?_some hfind
    rw [(ProtoMethod.strlow_route_iff hsep').mpr (hlower m' hm')] at hname
    obtain ⟨rfl, hfull⟩ := ProtoMethod.route_inj hsep' hsep hname
    obtain rfl := List.inj_on_of_nodup_map hdistinct hm' hm hfull
    rfl

/-- Every method is reachable by its routes exactly when no name has an upper-case letter. -/
theorem routesReachable_iff (hN : N.Lawful)
    (hconf : postconfiguration N pushed (methods.flatMap ProtoMethod.confs) = some methodHash)
    (hdistinct : (methods.map ProtoMethod.fullName).Nodup) :
    RoutesReachable N methodHash methods ↔ ∀ m ∈ methods, m.LowerCase := by
  constructor
  · exact fun h m hm => h.lowerCase hN hconf hm
  · intro hlower
    refine ⟨fun m hm c hc room => ⟨c, hc, ?_⟩, fun uri huri room => ?_⟩
    · exact httpHandler_route hN hconf hdistinct hlower hm hc room
    · exact httpHandler_declined hN hconf huri room

end Methods

end Program

/-! ## The inspect module -/

/-- The hash tables of nginx with more buckets than keys. -/
def ngxHash (V : Type) : NgxHash V where
  Table := ℕ × List (HashKey V)
  keyLc s := (s.foldl (fun key c => key * 31 + (asciiLower c).toUInt64) (0 : UInt64)).toNat
  init keys := some (keys.length + 1, keys)
  find table hash name :=
    ((table.2.filter fun k => k.keyHash % table.1 = hash % table.1).find? fun k =>
      strlow k.key = name).map HashKey.value

theorem ngxHash_lawful (V : Type) : (ngxHash V).Lawful where
  keyLc_strlow s := by
    simp only [ngxHash, strlow, List.foldl_map, asciiLower_asciiLower]
  init_find keys := ⟨_, rfl, (· % (keys.length + 1)), fun _ _ => rfl⟩

/-- A method of `inspect.proto`. -/
def inspectMethod (name : Identifier) (handler : String) : ProtoMethod String String where
  package := [⟨asciiBytes "ngxrpc", by decide +kernel⟩, ⟨asciiBytes "inspect", by decide +kernel⟩]
  service := ⟨asciiBytes "Application", by decide +kernel⟩
  name := name
  handler := handler
  impl := "application_impl"

def inspectMethods : List (ProtoMethod String String) :=
  [inspectMethod ⟨asciiBytes "interface", by decide +kernel⟩
      "ngxrpc_inspect_application_interface",
    inspectMethod ⟨asciiBytes "requeststatus", by decide +kernel⟩
      "ngxrpc_inspect_application_requeststatus"]

theorem routesReachable_iff_inspect : ∃ table,
    postconfiguration (ngxHash (MethodConf String String)) true
      (inspectMethods.flatMap ProtoMethod.confs) = some table ∧
    (RoutesReachable (ngxHash _) table inspectMethods ↔ ∀ m ∈ inspectMethods, m.LowerCase) := by
  have hconf : postconfiguration (ngxHash (MethodConf String String)) true
      (inspectMethods.flatMap ProtoMethod.confs) = some (_, _) := rfl
  exact ⟨_, hconf, routesReachable_iff (ngxHash_lawful _) hconf (by decide +kernel)⟩

/-- A request for a route of the module is declined. -/
theorem not_routesReachable_inspect : ∃ table,
    postconfiguration (ngxHash (MethodConf String String)) true
      (inspectMethods.flatMap ProtoMethod.confs) = some table ∧
    (∃ m ∈ inspectMethods, ∃ c ∈ m.confs,
      c.name = asciiBytes "/ngxrpc/inspect/Application/interface" ∧
      httpHandler (ngxHash _) (some ⟨true, table⟩) true none c.name = ⟨-5, none⟩) ∧
    ¬RoutesReachable (ngxHash _) table inspectMethods := by
  have hconf : postconfiguration (ngxHash (MethodConf String String)) true
      (inspectMethods.flatMap ProtoMethod.confs) = some (_, _) := rfl
  let c : MethodConf String String := ⟨asciiBytes "/ngxrpc/inspect/Application/interface",
    "application_impl", "ngxrpc_inspect_application_interface"⟩
  obtain ⟨m, hm, hc⟩ : ∃ m ∈ inspectMethods, c ∈ m.confs :=
    ⟨_, List.mem_cons_self, by decide +kernel⟩
  have hnone : (inspectMethods.flatMap ProtoMethod.confs).find?
      (fun c' => strlow c'.name = c.name) = none := by
    decide +kernel
  have hdeclined := httpHandler_eq (ngxHash_lawful _) hconf true c.name
  rw [hnone, Option.elim_none] at hdeclined
  refine ⟨_, hconf, ⟨m, hm, c, hc, rfl, hdeclined⟩, fun h => ?_⟩
  obtain ⟨mth, -, hmth⟩ := h.1 m hm c hc true
  rw [hdeclined] at hmth
  simp [Handled.taken] at hmth

end NgxRpc
