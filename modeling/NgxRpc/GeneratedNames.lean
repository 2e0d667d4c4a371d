import NgxRpc.FileNames

/-!
# Identifiers of a generated module

`GetNgxModuleHeader` defines a handler function for every method, a function and four fields
of the configuration for every service. It makes their names from those of the proto file:
the names of services are put into lower case, and parts are joined with underscores, which
may occur in the parts.

## Main definitions

- `FileDescriptor` — a proto file that protobuf accepts
- `NamesDistinct` — the identifiers are pairwise distinct

## Main results

- `namesDistinct_iff` — the proto files for which they are
-/

namespace NgxRpc

def underscore : UInt8 := 95

/-- A service and its methods. -/
structure ServiceDescriptor where
  name : Identifier
  methods : List Identifier
  nodup : methods.Nodup

/-- A file and its services. -/
structure FileDescriptor where
  name : List UInt8
  services : List ServiceDescriptor
  nodup : (services.map ServiceDescriptor.name).Nodup

namespace FileDescriptor

/-- `PROTO_NAME`. -/
def protoName (d : FileDescriptor) : List UInt8 := lower (stripProto d.name)

/-- The methods, each with its service. -/
def methods (d : FileDescriptor) : List (ServiceDescriptor × Identifier) :=
  d.services.flatMap fun s => s.methods.map fun m => (s, m)

/-- The function of `NGX_RPC_METHOD_PROCESS`; `NGX_RPC_SET_SERVER_METHOD_ITEM` registers it. -/
def handler (d : FileDescriptor) (m : ServiceDescriptor × Identifier) : List UInt8 :=
  asciiBytes "ngxrpc_" ++ d.protoName ++ underscore :: (lower m.1.name.bytes ++
    underscore :: m.2.bytes)

/-- The function of `NGX_RPC_SET_SERVER_METHOD_START`. -/
def setHandler (d : FileDescriptor) (s : ServiceDescriptor) : List UInt8 :=
  asciiBytes "ngx_conf_set_" ++ d.protoName ++ underscore :: (lower s.name.bytes ++
    asciiBytes "_hanlder")

/-- The endings of the fields of `NGX_RPC_MODULE_CONF_SERVERS`. -/
def fieldSuffixes : List (List UInt8) :=
  [asciiBytes "_log", asciiBytes "_conf_file", asciiBytes "_log_file", asciiBytes "_impl"]

/-- The fields of `ngx_http_$PROTO_NAME$_conf_t`. -/
def confFields (d : FileDescriptor) : List (List UInt8) :=
  d.services.flatMap fun s => fieldSuffixes.map fun suffix => lower s.name.bytes ++ suffix

/-- The identifiers are pairwise distinct within their scope, and a registered handler is
that of one method. -/
structure NamesDistinct (d : FileDescriptor) : Prop where
  functions : (d.methods.map d.handler ++ d.services.map d.setHandler).Nodup
  fields : d.confFields.Nodup
  routes : ∀ m ∈ d.methods, ∀ m' ∈ d.methods, d.handler m = d.handler m' → m = m'

/-- No two names of services differ in the case of letters alone. -/
def CaseDistinct (d : FileDescriptor) : Prop :=
  (d.services.map fun s => lower s.name.bytes).Nodup

/-- What the name of a service has after that of another one and an underscore does not
stand before an underscore in the name of a method. -/
def Unjoined (d : FileDescriptor) : Prop :=
  ∀ m ∈ d.methods, ∀ m' ∈ d.methods, ∀ x,
    lower m'.1.name.bytes = lower m.1.name.bytes ++ underscore :: x →
      m.2.bytes ≠ x ++ underscore :: m'.2.bytes

end FileDescriptor

/-! ## Joining names -/

instance : DecidableEq Identifier := fun a b =>
  decidable_of_iff (a.bytes = b.bytes) ⟨Identifier.ext_bytes, fun h => congrArg _ h⟩

/-- None of the endings ends in another one. -/
theorem suffix_of_fieldSuffixes : ∀ s ∈ FileDescriptor.fieldSuffixes,
    ∀ t ∈ FileDescriptor.fieldSuffixes, s <:+ t → s = t := by
  decide +kernel

theorem append_fieldSuffix_inj {a b s t : List UInt8} (hs : s ∈ FileDescriptor.fieldSuffixes)
    (ht : t ∈ FileDescriptor.fieldSuffixes) (h : a ++ s = b ++ t) : a = b ∧ s = t := by
  have hst : s = t := by
    obtain hsuffix | hsuffix := List.suffix_or_suffix_of_suffix (List.suffix_append a s)
      (h ▸ List.suffix_append b t)
    · exact suffix_of_fieldSuffixes s hs t ht hsuffix
    · exact (suffix_of_fieldSuffixes t ht s hs hsuffix).symm
  subst hst
  exact ⟨List.append_cancel_right h, rfl⟩

namespace FileDescriptor

variable {d : FileDescriptor}

theorem mem_methods {m : ServiceDescriptor × Identifier} :
    m ∈ d.methods ↔ m.1 ∈ d.services ∧ m.2 ∈ m.1.methods := by
  simp only [methods, List.mem_flatMap, List.mem_map]
  constructor
  · rintro ⟨s, hs, m, hm, rfl⟩
    exact ⟨hs, hm⟩
  · rintro ⟨hs, hm⟩
    exact ⟨m.1, hs, m.2, hm, rfl⟩

theorem services_nodup (d : FileDescriptor) : d.services.Nodup := List.Nodup.of_map _ d.nodup

theorem methods_nodup (d : FileDescriptor) : d.methods.Nodup := by
  refine List.nodup_flatMap.mpr ⟨fun s _ => ?_, ?_⟩
  · exact s.nodup.map fun m m' h => (Prod.mk.inj h).2
  · refine d.services_nodup.imp fun hne => ?_
    rintro ⟨s, m⟩ hs ht
    obtain ⟨_, _, hs⟩ := List.mem_map.mp hs
    obtain ⟨_, _, ht⟩ := List.mem_map.mp ht
    exact hne ((Prod.mk.inj hs).1.trans (Prod.mk.inj ht).1.symm)

theorem handler_eq_iff {m m' : ServiceDescriptor × Identifier} : d.handler m = d.handler m' ↔
    lower m.1.name.bytes ++ underscore :: m.2.bytes =
      lower m'.1.name.bytes ++ underscore :: m'.2.bytes := by
  simp [handler]

theorem setHandler_eq_iff {s t : ServiceDescriptor} :
    d.setHandler s = d.setHandler t ↔ lower s.name.bytes = lower t.name.bytes := by
  simp [setHandler]

/-- The names of the two kinds of functions part at the fourth byte. -/
theorem handler_ne_setHandler (m : ServiceDescriptor × Identifier) (s : ServiceDescriptor) :
    d.handler m ≠ d.setHandler s := by
  have hrpc : asciiBytes "ngxrpc_" = asciiBytes "ngx" ++ 114 :: asciiBytes "pc_" := by
    decide +kernel
  have hconf : asciiBytes "ngx_conf_set_" = asciiBytes "ngx" ++ 95 :: asciiBytes "conf_set_" := by
    decide +kernel
  intro h
  simp only [handler, setHandler, hrpc, hconf, List.append_assoc, List.cons_append,
    List.append_cancel_left_eq] at h
  exact absurd (List.cons.inj h).1 (by decide)

/-- Names that stay apart in lower case belong to one service. -/
theorem CaseDistinct.eq_of_lower (h : d.CaseDistinct) {s t : ServiceDescriptor}
    (hs : s ∈ d.services) (ht : t ∈ d.services) (he : lower s.name.bytes = lower t.name.bytes) :
    s = t :=
  List.inj_on_of_nodup_map h hs ht he

theorem routes_of_unjoined (hcase : d.CaseDistinct) (hjoin : d.Unjoined) :
    ∀ m ∈ d.methods, ∀ m' ∈ d.methods, d.handler m = d.handler m' → m = m' := by
  intro m hm m' hm' h
  obtain ⟨hservice, hname⟩ | ⟨x, hservice, hname⟩ | ⟨x, hservice, hname⟩ :=
    Search.append_sep_eq (handler_eq_iff.mp h)
  · have hs := hcase.eq_of_lower (mem_methods.mp hm).1 (mem_methods.mp hm').1 hservice
    exact Prod.ext hs (Identifier.ext_bytes hname)
  · exact absurd hname (hjoin m hm m' hm' x hservice)
  · exact absurd hname (hjoin m' hm' m hm x hservice)

theorem confFields_nodup_iff : d.confFields.Nodup ↔ d.CaseDistinct := by
  rw [confFields, List.nodup_flatMap, CaseDistinct, List.Nodup, List.pairwise_map]
  constructor
  · rintro ⟨-, hdisjoint⟩
    refine hdisjoint.imp fun hdis he => ?_
    have hlog : asciiBytes "_log" ∈ fieldSuffixes := List.mem_cons_self
    exact hdis (List.mem_map_of_mem hlog) (he ▸ List.mem_map_of_mem hlog)
  · intro hcase
    refine ⟨fun s _ => ?_, hcase.imp fun hne => ?_⟩
    · have hnodup : fieldSuffixes.Nodup := by decide +kernel
      exact hnodup.map fun _ _ h => List.append_cancel_left h
    · intro field hs ht
      obtain ⟨suffix, hsuffix, rfl⟩ := List.mem_map.mp hs
      obtain ⟨suffix', hsuffix', h⟩ := List.mem_map.mp ht
      exact hne (append_fieldSuffix_inj hsuffix' hsuffix h).1.symm

/-- The identifiers are distinct exactly when the names of services are in lower case, and
no service name goes on where a method name of another service does. -/
theorem namesDistinct_iff (d : FileDescriptor) :
    d.NamesDistinct ↔ d.CaseDistinct ∧ d.Unjoined := by
  constructor
  · intro h
    refine ⟨confFields_nodup_iff.mp h.fields, ?_⟩
    intro m hm m' hm' x hservice hname
    have heq : d.handler m = d.handler m' := by
      rw [handler_eq_iff, hservice, hname, List.append_assoc]
      rfl
    have hsame := h.routes m hm m' hm' heq
    rw [hsame] at hservice
    have hlen := congrArg List.length hservice
    rw [List.length_append, List.length_cons] at hlen
    omega
  · rintro ⟨hcase, hjoin⟩
    have hroutes := routes_of_unjoined hcase hjoin
    refine ⟨List.nodup_append.mpr ⟨?_, ?_, ?_⟩, confFields_nodup_iff.mpr hcase, hroutes⟩
    · exact d.methods_nodup.map_on hroutes
    · refine d.services_nodup.map_on fun s hs t ht h => ?_
      exact hcase.eq_of_lower hs ht (setHandler_eq_iff.mp h)
    · intro f hf g hg
      obtain ⟨m, -, rfl⟩ := List.mem_map.mp hf
      obtain ⟨s, -, rfl⟩ := List.mem_map.mp hg
      exact handler_ne_setHandler m s

/-- `service User { rpc admin_list }` and `service User_Admin { rpc list }`. -/
def joinedFile : FileDescriptor where
  name := asciiBytes "user.proto"
  services := [
    ⟨⟨asciiBytes "User", by decide +kernel⟩, [⟨asciiBytes "admin_list", by decide +kernel⟩],
      by simp⟩,
    ⟨⟨asciiBytes "User_Admin", by decide +kernel⟩, [⟨asciiBytes "list", by decide +kernel⟩],
      by simp⟩]
  nodup := by decide +kernel

/-- `service User` and `service USER`, without methods. -/
def caseFile : FileDescriptor where
  name := asciiBytes "user.proto"
  services := [⟨⟨asciiBytes "User", by decide +kernel⟩, [], by simp⟩,
    ⟨⟨asciiBytes "USER", by decide +kernel⟩, [], by simp⟩]
  nodup := by decide +kernel

/-- Both methods of the first file get the handler `ngxrpc_user_user_admin_list`. -/
theorem not_namesDistinct : ¬joinedFile.NamesDistinct ∧
    joinedFile.methods.map joinedFile.handler = [asciiBytes "ngxrpc_user_user_admin_list",
      asciiBytes "ngxrpc_user_user_admin_list"] ∧ ¬caseFile.NamesDistinct := by
  have hhandlers : joinedFile.methods.map joinedFile.handler =
      [asciiBytes "ngxrpc_user_user_admin_list", asciiBytes "ngxrpc_user_user_admin_list"] := by
    decide +kernel
  refine ⟨fun h => ?_, hhandlers, fun h => ?_⟩
  · have hnodup := (List.nodup_append.mp h.functions).1
    rw [hhandlers] at hnodup
    simp at hnodup
  · have hfields := h.fields
    revert hfields
    decide +kernel

end FileDescriptor

end NgxRpc
