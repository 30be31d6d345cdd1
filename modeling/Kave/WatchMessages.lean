import Kave.Json
import Kave.Prefixes

/-! The control messages of a watch session. They are written by hand, with the text of an error as it is, and read by the decoder
    of the standard library. An error is its text, and no error is not an error without a text. -/

namespace Kave

open Utf8 (runes runes_append_ascii)
open Json (text formatInt formatBool Plain)

/-! ### Responses -/

structure WatchResponse where
  watchID : Int64
  success : Bool
  error : Option Bytes
deriving DecidableEq

namespace WatchResponse

def marshalJSON (r : WatchResponse) : Bytes :=
  match r.error with
  | none => text "\x7b\"watch_id\": " ++ formatInt r.watchID ++ text ", \"success\": " ++ formatBool r.success ++ text "\x7d"
  | some e =>
    text "\x7b\"watch_id\": " ++ formatInt r.watchID ++ text ", \"success\": " ++ formatBool r.success ++
      text ", \"error\": \"" ++ e ++ text "\" \x7d"

/-- What is decoded first. -/
structure Alias where
  watchID : Int64
  success : Bool
  error : Bytes

def Alias.fields : List (Bytes × Json.Setter Alias) :=
  [(text "watch_id",Json.intField fun v a => { a with watchID := v }),
    (text "success",Json.boolField fun b a => { a with success := b }),
    (text "error",Json.strField fun s a => { a with error := s })]

def Alias.response (a : Alias) : WatchResponse := ⟨a.watchID,a.success,if a.error ≠ [] then some a.error else none⟩

/-- Every field of the receiver is set, or none where the text cannot be decoded. -/
def unmarshalJSON (bs : Bytes) : Option WatchResponse := (Json.unmarshal Alias.fields ⟨0,false,[]⟩ bs).map Alias.response

/-- The response is encoded as JSON and decoded as it was. -/
def RoundTrips (r : WatchResponse) : Prop := Json.Valid r.marshalJSON ∧ unmarshalJSON r.marshalJSON = some r

end WatchResponse

def ResponseHeader.zero : ResponseHeader := ⟨0,0,0,0,""⟩

/-- The header stands beside an embedded response, which brings both methods with it. -/
structure WatchCreateResponse where
  header : ResponseHeader
  watchResponse : WatchResponse
deriving DecidableEq

namespace WatchCreateResponse

def marshalJSON (r : WatchCreateResponse) : Bytes := r.watchResponse.marshalJSON

def unmarshalJSON (r : WatchCreateResponse) (bs : Bytes) : Option WatchCreateResponse :=
  (WatchResponse.unmarshalJSON bs).map fun w => { r with watchResponse := w }

def zero : WatchCreateResponse := ⟨.zero,⟨0,false,none⟩⟩

def RoundTrips (r : WatchCreateResponse) : Prop := Json.Valid r.marshalJSON ∧ zero.unmarshalJSON r.marshalJSON = some r

end WatchCreateResponse

/-! ### Error payloads -/

structure ServerErrorPayload where
  cause : Option Bytes
  message : Bytes
deriving DecidableEq

namespace ServerErrorPayload

/-- None where a method of a cause is called that is not there. -/
def marshalJSON (e : ServerErrorPayload) : Option Bytes := do
  let bs := text "\x7b"
  let bs ← if e.cause = none then e.cause.map fun cause => bs ++ text "\"cause\": \"" ++ cause ++ text "\"" else some bs
  let bs ←
    if e.message.length ≠ 0 then
      -- A byte is printed as a number, so that no comma is written.
      let bs := if e.cause ≠ none then bs ++ text "44" else bs
      e.cause.map fun cause => bs ++ text "\"message\": \"" ++ cause ++ text "\""
    else some bs
  some (bs ++ text "\x7d")

structure Alias where
  cause : Bytes
  message : Bytes

def Alias.fields : List (Bytes × Json.Setter Alias) :=
  [(text "cause",Json.strField fun s a => { a with cause := s }),(text "message",Json.strField fun s a => { a with message := s })]

def Alias.payload (a : Alias) : ServerErrorPayload := ⟨if a.cause.length ≠ 0 then some a.cause else none,a.message⟩

def unmarshalJSON (bs : Bytes) : Option ServerErrorPayload := (Json.unmarshal Alias.fields ⟨[],[]⟩ bs).map Alias.payload

def RoundTrips (e : ServerErrorPayload) : Prop := ∃ bs, e.marshalJSON = some bs ∧ Json.Valid bs ∧ unmarshalJSON bs = some e

end ServerErrorPayload

/-! ### What a session sends -/

inductive ServerMessageKind
  | error
  | watchCreated
  | watchCanceled
deriving DecidableEq, Repr

structure ServerMessage where
  kind : ServerMessageKind
  payload : Bytes
deriving DecidableEq

/-- The response is decoded into itself before it is sent, so that its header is there after as before. -/
def toServerWatchCreate (res : WatchCreateResponse) : Option ServerMessage :=
  (res.unmarshalJSON res.marshalJSON).map fun _ => ⟨.watchCreated,res.marshalJSON⟩

def toServerWatchCanceled (res : WatchResponse) : Option ServerMessage :=
  (WatchResponse.unmarshalJSON res.marshalJSON).map fun _ => ⟨.watchCanceled,res.marshalJSON⟩

def toServerErrorMessage (cause : Option Bytes) (msg : Bytes) : Option ServerMessage :=
  (ServerErrorPayload.mk cause msg).marshalJSON.map fun bs => ⟨.error,bs⟩

/-! ### Reading a response -/

namespace WatchResponse

section
open Json (quote comma colon space openBrace closeBrace)

theorem runes_watch_id (x : Bytes) : runes (text "\x7b\"watch_id\": " ++ x) =
    openBrace :: quote :: (runes (text "watch_id") ++ quote :: colon :: space :: runes x) := rfl

theorem runes_success (l x : Bytes) : runes (l ++ (text ", \"success\": " ++ x)) =
    runes l ++ comma :: space :: quote :: (runes (text "success") ++ quote :: colon :: space :: runes x) :=
  runes_append_ascii l (c := 44) (by decide) _

theorem runes_error (l x : Bytes) : runes (l ++ (text ", \"error\": \"" ++ x)) =
    runes l ++ comma :: space :: quote :: (runes (text "error") ++ quote :: colon :: space :: quote :: runes x) :=
  runes_append_ascii l (c := 44) (by decide) _

theorem stops_comma : Json.Stops comma := by
  rintro b (digit | listed) is
  · cases of_decide_eq_true is
    cases digit
  · cases of_decide_eq_true is
    revert listed
    decide

/-- The text after the opening brace: the two first members, and what is behind them. -/
def body (watchID : Int64) (success : Bool) (behind : Json.Text) : Json.Text :=
  quote :: (runes (text "watch_id") ++ quote :: colon :: space :: (runes (formatInt watchID) ++ comma :: space ::
    quote :: (runes (text "success") ++ quote :: colon :: space :: (runes (formatBool success) ++ behind))))

/-- What is behind the second member where there is an error. -/
def errorPart (e : Bytes) : Json.Text :=
  space :: quote :: (runes (text "error") ++ quote :: colon :: space :: quote :: (runes e ++ quote :: [space,closeBrace]))

theorem runes_marshalJSON (r : WatchResponse) : runes r.marshalJSON =
    openBrace :: body r.watchID r.success ((r.error.map fun e => comma :: errorPart e).getD [closeBrace]) := by
  obtain ⟨id,success,error⟩ := r
  have noError (l : Bytes) : runes (l ++ text "\x7d") = runes l ++ [closeBrace] := runes_append_ascii l (c := 125) (by decide) _
  have last (l : Bytes) : runes (l ++ text "\" \x7d") = runes l ++ quote :: [space,closeBrace] :=
    runes_append_ascii l (c := 34) (by decide) _
  cases error with
  | none =>
    simp only [marshalJSON,List.append_assoc,runes_watch_id,runes_success,noError]
    rfl
  | some e =>
    simp only [marshalJSON,List.append_assoc,runes_watch_id,runes_success,runes_error,last]
    rfl

theorem plain_watch_id : Plain (text "watch_id") := by decide

theorem plain_success : Plain (text "success") := by decide

theorem plain_error : Plain (text "error") := by decide

theorem members_body (watchID : Int64) (success : Bool) {r : Utf8.Rune} (visible : Json.isSpace r = false) (behind : Json.Text) (n : Nat) :
    Json.members (Json.value 9999) (n + 2) true (body watchID success (r :: behind)) =
      (if r.is 125 then some ([],behind) else if r.is 44 then Json.members (Json.value 9999) n false behind else none).map fun p =>
        ((text "watch_id",.num (formatInt watchID)) :: (text "success",.bool success) :: p.1,p.2) := by
  have flag := (Json.value_space _ 9999).trans (Json.value_formatBool success (r :: behind) 9999)
  have two := Json.members_append plain_success ((Json.token_space _).trans (Json.token_quote _)) flag (Json.token_cons visible _) n false
  have id (rest : Json.Text) := (Json.value_space _ 9999).trans (Json.value_formatInt watchID stops_comma rest 9999)
  rw [body,Json.members_append plain_watch_id (Json.token_quote _) (id _) (Json.token_cons rfl _) (n + 1) true]
  rw [if_neg (by decide),if_pos (by decide),two]
  split_ifs
  · rfl
  · simp only [Option.map_map]
    rfl
  · rfl

theorem members_errorPart {e : Bytes} (plain : Plain e) (n : Nat) :
    Json.members (Json.value 9999) (n + 1) false (errorPart e) = some ([(text "error",.str e)],[]) := by
  have str : Json.value 9999 (space :: quote :: (runes e ++ quote :: [space,closeBrace])) = some (.str e,[space,closeBrace]) := by
    rw [Json.value_space,Json.value_string,Json.string_append plain]
    rfl
  rw [errorPart,Json.members_append plain_error ((Json.token_space _).trans (Json.token_quote _)) str
    ((Json.token_space _).trans (Json.token_cons rfl [])) n false]
  rfl

theorem member_errorPart (e : Bytes) : Json.member (Json.value 9999) (errorPart e) =
    (Json.string (runes e ++ quote :: [space,closeBrace])).map fun p => ((text "error",.str p.1),p.2) := by
  rw [errorPart,Json.member_append plain_error ((Json.token_space _).trans (Json.token_quote _)),Json.value_space,Json.value_string,
    Option.map_map]
  rfl

/-- The text of the error is no other string of the members: where it is cut short, the rest is too short to hold it. -/
theorem plain_of_members {e key : Bytes} {n : Nat} {ms : List (Bytes × Json.Value)} {rest : Json.Text}
    (read : Json.members (Json.value 9999) n false (errorPart e) = some (ms,rest)) (listed : (key,.str e) ∈ ms) : Plain e := by
  have noQuote : ∀ r ∈ [space,closeBrace], ¬ r.is 34 := by decide
  rcases Json.items_cases read with ⟨rfl,-⟩ | ⟨a,t1,r,t2,one,next,others⟩
  · cases listed
  · rw [member_errorPart] at one
    obtain ⟨⟨s,after⟩,string,same⟩ := Option.map_eq_some_iff.mp one
    cases same
    rcases others with ⟨rfl,-⟩ | ⟨k,more,-,inner,rfl⟩
    · cases List.mem_singleton.mp listed
      exact Json.plain_of_string noQuote string
    · rcases List.mem_cons.mp listed with same | later
      · cases same
        exact Json.plain_of_string noQuote string
      · obtain ⟨part,_,member,most⟩ := Json.of_mem_items (Json.member_shrinks (Json.value_shrinks 9999)) inner later
        have whole := Json.length_of_str_member member
        have shorter := (Json.token_shrinks _ _ _ next).trans (Json.string_shrinks _ _ _ string)
        simp only [List.length_append,List.length_cons,List.length_nil] at shorter
        omega

theorem document_of_none (watchID : Int64) (success : Bool) : Json.document (runes (marshalJSON ⟨watchID,success,none⟩)) =
    some (.obj [(text "watch_id",.num (formatInt watchID)),(text "success",.bool success)]) := by
  rw [runes_marshalJSON,Json.document_object (Nat.lt_add_of_pos_right (k := 2) (by decide))]
  dsimp only [Option.map_none,Option.getD_none]
  rw [members_body watchID success rfl []]
  rfl

theorem document_of_some (watchID : Int64) (success : Bool) (e : Bytes) : ∃ n,
    Json.document (runes (marshalJSON ⟨watchID,success,some e⟩)) = (Json.members (Json.value 9999) (n + 1) false (errorPart e)).bind fun p =>
      if Json.token p.2 = none then
        some (.obj ((text "watch_id",.num (formatInt watchID)) :: (text "success",.bool success) :: p.1))
      else none := by
  refine ⟨(body watchID success (comma :: errorPart e)).length,?_⟩
  rw [runes_marshalJSON,Json.document_object (Nat.lt_add_of_pos_right (k := 3) (by decide))]
  dsimp only [Option.map_some,Option.getD_some]
  rw [members_body watchID success rfl (errorPart e),Option.bind_map]
  rfl

/-! ### Decoding a response -/

theorem assign_watch_id (a : Alias) (v : Int64) :
    Json.assign Alias.fields a (text "watch_id",.num (formatInt v)) = some { a with watchID := v } := by
  have found : Json.assign Alias.fields a (text "watch_id",.num (formatInt v)) =
    (Json.parseInt (formatInt v)).map fun v => { a with watchID := v } := rfl
  rw [found,Json.parseInt_formatInt]
  rfl

theorem assign_success (a : Alias) (b : Bool) : Json.assign Alias.fields a (text "success",.bool b) = some { a with success := b } := rfl

theorem assign_error (a : Alias) (e : Bytes) : Json.assign Alias.fields a (text "error",.str e) = some { a with error := e } := rfl

theorem error_of_unmarshal {a : Alias} {bs : Bytes} (read : Json.unmarshal Alias.fields ⟨0,false,[]⟩ bs = some a) (text : a.error ≠ []) :
    ∃ ms key, Json.document (runes bs) = some (.obj ms) ∧ (key,.str a.error) ∈ ms := by
  have stored : ∀ f ∈ Alias.fields, ∀ v s s', f.2 v s = some s' → Alias.error s' = Alias.error s ∨ v = .str (Alias.error s') := by
    intro f listed v s s' set
    simp only [Alias.fields,List.mem_cons,List.not_mem_nil,or_false] at listed
    rcases listed with rfl | rfl | rfl
    · rcases Json.intField_cases set with rfl | ⟨_,rfl⟩ <;> exact .inl rfl
    · rcases Json.boolField_cases set with rfl | ⟨_,rfl⟩ <;> exact .inl rfl
    · rcases Json.strField_cases set with rfl | ⟨b,rfl,rfl⟩
      · exact .inl rfl
      · exact .inr rfl
  unfold Json.unmarshal at read
  split at read
  · cases read
    exact absurd rfl text
  · next ms parsed =>
    rcases Json.of_foldlM_assign stored read with same | ⟨key,listed⟩
    · exact absurd same text
    · exact ⟨ms,key,parsed,listed⟩
  · cases read

theorem unmarshalJSON_of_none (watchID : Int64) (success : Bool) :
    unmarshalJSON (marshalJSON ⟨watchID,success,none⟩) = some ⟨watchID,success,none⟩ := by
  rw [unmarshalJSON,Json.unmarshal,document_of_none]
  simp only [List.foldlM_cons,List.foldlM_nil,assign_watch_id,assign_success,Option.bind_eq_bind,Option.bind_some]
  rfl

theorem unmarshalJSON_of_plain (watchID : Int64) (success : Bool) {e : Bytes} (present : e ≠ []) (plain : Plain e) :
    unmarshalJSON (marshalJSON ⟨watchID,success,some e⟩) = some ⟨watchID,success,some e⟩ := by
  obtain ⟨n,parsed⟩ := document_of_some watchID success e
  rw [members_errorPart plain] at parsed
  rw [unmarshalJSON,Json.unmarshal,parsed]
  have last : Json.token [] = none := rfl
  simp only [Option.bind_some,last,if_true,List.foldlM_cons,List.foldlM_nil,assign_watch_id,assign_success,assign_error,
    Option.bind_eq_bind,Option.pure_def,Option.map_some,Alias.response,if_pos present]

theorem plain_of_unmarshalJSON {watchID : Int64} {success : Bool} {e : Bytes}
    (read : unmarshalJSON (marshalJSON ⟨watchID,success,some e⟩) = some ⟨watchID,success,some e⟩) : e ≠ [] ∧ Plain e := by
  obtain ⟨a,decoded,same⟩ := Option.map_eq_some_iff.mp read
  have error : a.error ≠ [] ∧ a.error = e := by
    have := congrArg WatchResponse.error same
    simpa [Alias.response] using this
  obtain ⟨present,rfl⟩ := error
  obtain ⟨ms,key,parsed,listed⟩ := error_of_unmarshal decoded present
  obtain ⟨n,same⟩ := document_of_some watchID success a.error
  rw [parsed] at same
  obtain ⟨⟨more,rest⟩,read,last⟩ := Option.bind_eq_some_iff.mp same.symm
  split_ifs at last
  cases last
  simp only [List.mem_cons,Prod.mk.injEq,reduceCtorEq,and_false,false_or] at listed
  exact ⟨present,plain_of_members read listed⟩

theorem roundTrips_iff (r : WatchResponse) : r.RoundTrips ↔ ∀ e, r.error = some e → e ≠ [] ∧ Plain e := by
  have valid : unmarshalJSON r.marshalJSON = some r → Json.Valid r.marshalJSON := fun read => by
    obtain ⟨a,decoded,-⟩ := Option.map_eq_some_iff.mp read
    exact Json.valid_of_unmarshal decoded
  rw [RoundTrips,and_iff_right_of_imp valid]
  obtain ⟨id,success,_ | e⟩ := r
  · exact iff_of_true (unmarshalJSON_of_none id success) nofun
  · constructor
    · rintro read _ ⟨⟩
      exact plain_of_unmarshalJSON read
    · intro plain
      exact unmarshalJSON_of_plain id success (plain e rfl).1 (plain e rfl).2

end

end WatchResponse

namespace WatchCreateResponse

theorem roundTrips_iff (r : WatchCreateResponse) : r.RoundTrips ↔ r.header = .zero ∧ r.watchResponse.RoundTrips := by
  obtain ⟨header,w⟩ := r
  simp only [RoundTrips,WatchResponse.RoundTrips,unmarshalJSON,marshalJSON,Option.map_eq_some_iff,mk.injEq,zero]
  constructor
  · rintro ⟨valid,w',read,same,rfl⟩
    exact ⟨same.symm,valid,read⟩
  · rintro ⟨same,valid,read⟩
    exact ⟨valid,w,read,same.symm,rfl⟩

end WatchCreateResponse

namespace ServerErrorPayload

/-- Without a cause nothing is written; with one, no comma and not the message. -/
theorem marshalJSON_eq (e : ServerErrorPayload) : e.marshalJSON = e.cause.map fun cause =>
    if e.message = [] then text "\x7b\x7d" else text "\x7b44\"message\": \"" ++ cause ++ text "\"\x7d" := by
  obtain ⟨_ | cause,_ | ⟨b,message⟩⟩ := e
  · rfl
  · rfl
  · rfl
  · exact congrArg some (List.append_assoc (text "\x7b44\"message\": \"" ++ cause) (text "\"") (text "\x7d"))

theorem not_valid_of_message (cause : Bytes) : ¬ Json.Valid (text "\x7b44\"message\": \"" ++ cause ++ text "\"\x7d") := by
  rw [List.append_assoc]
  generalize cause ++ text "\"\x7d" = rest
  have parts : runes (text "\x7b44\"message\": \"" ++ rest) =
    Json.openBrace :: .ascii 52 (by decide) :: runes (text "4\"message\": \"" ++ rest) := rfl
  rw [Json.Valid,parts,Json.document_object (Nat.lt_succ_self _)]
  exact nofun

theorem unmarshalJSON_empty : unmarshalJSON (text "\x7b\x7d") = some ⟨none,[]⟩ := by
  have parts : runes (text "\x7b\x7d") = [Json.openBrace,Json.closeBrace] := rfl
  rw [unmarshalJSON,Json.unmarshal,parts,Json.document_object (Nat.lt_succ_self _)]
  rfl

theorem not_roundTrips (e : ServerErrorPayload) : ¬ e.RoundTrips := by
  rintro ⟨bs,written,valid,read⟩
  rw [marshalJSON_eq] at written
  obtain ⟨cause,present,rfl⟩ := Option.map_eq_some_iff.mp written
  split_ifs at valid read
  · rw [unmarshalJSON_empty,Option.some_inj] at read
    rw [← read] at present
    cases present
  · exact not_valid_of_message cause valid

end ServerErrorPayload

/-- A response comes back where it has no error or one whose text needs no escape, a created watch's only without a header. An error
    payload never does. -/
theorem watch_messages_round_trip_iff (r : WatchResponse) (header : ResponseHeader) (payload : ServerErrorPayload) :
    (r.RoundTrips ↔ ∀ e, r.error = some e → e ≠ [] ∧ Plain e) ∧
      ((WatchCreateResponse.mk header r).RoundTrips ↔ header = .zero ∧ ∀ e, r.error = some e → e ≠ [] ∧ Plain e) ∧
      ¬ payload.RoundTrips := by
  refine ⟨r.roundTrips_iff,?_,payload.not_roundTrips⟩
  rw [WatchCreateResponse.roundTrips_iff, r.roundTrips_iff]

theorem watch_messages_round_trip_stream_closed : WatchResponse.RoundTrips ⟨0,false,some (text "watch stream is closed")⟩ := by
  refine (watch_messages_round_trip_iff _ .zero ⟨none,[]⟩).1.mpr ?_
  rintro _ ⟨⟩
  decide

/-- The header of a created watch is lost, an error that quotes a word is not read back, a payload without a cause is not written, and
    the one for a message of unknown kind is not JSON. -/
theorem watch_messages_lose_fields :
    WatchCreateResponse.zero.unmarshalJSON (WatchCreateResponse.mk ⟨5,0,1,3,"node1"⟩ ⟨1,true,none⟩).marshalJSON =
        some ⟨.zero,⟨1,true,none⟩⟩ ∧
      ¬ WatchResponse.RoundTrips ⟨0,false,some (text "no \"watch\"")⟩ ∧
      ServerErrorPayload.marshalJSON ⟨none,text "unknown kind"⟩ = none ∧
      ∃ bs, ServerErrorPayload.marshalJSON ⟨some (text "client message error:: unknown client message kind"),text "unknown kind"⟩ = some bs ∧
        ¬ Json.Valid bs := by
  refine ⟨?_,?_,rfl,_,ServerErrorPayload.marshalJSON_eq _,?_⟩
  · rw [WatchCreateResponse.unmarshalJSON, WatchCreateResponse.marshalJSON, WatchResponse.unmarshalJSON_of_none]
    rfl
  · rw [WatchResponse.roundTrips_iff]
    intro plain
    exact absurd (plain _ rfl).2 (by decide)
  · exact ServerErrorPayload.not_valid_of_message _

/-! ### What a client gets -/

theorem toServerWatchCreate_header (header header' : ResponseHeader) (w : WatchResponse) :
    toServerWatchCreate ⟨header,w⟩ = toServerWatchCreate ⟨header',w⟩ := by
  simp only [toServerWatchCreate,WatchCreateResponse.unmarshalJSON,WatchCreateResponse.marshalJSON,Option.map_map]
  rfl

theorem toServerWatchCanceled_of_roundTrips {w : WatchResponse} (comes : w.RoundTrips) :
    toServerWatchCanceled w = some ⟨.watchCanceled,w.marshalJSON⟩ := by
  rw [toServerWatchCanceled,comes.2]
  rfl

/-- An error with a message is sent, but a client cannot decode it. -/
theorem toServerErrorMessage_not_valid (cause : Bytes) {msg : Bytes} (present : msg ≠ []) :
    ∃ m, toServerErrorMessage (some cause) msg = some m ∧ m.kind = .error ∧ ¬ Json.Valid m.payload := by
  refine ⟨_,congrArg (Option.map _) (ServerErrorPayload.marshalJSON_eq _),rfl,?_⟩
  simp only [if_neg present]
  exact ServerErrorPayload.not_valid_of_message cause

end Kave
