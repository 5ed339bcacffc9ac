import Alcor.Luarpc.Sessions
import Alcor.Proofs.Luarpc.RoundTrip

/-!
# `Alcor.Proofs.Luarpc.Sessions`: sessions in lock-step

`answer` says what an operation does on the server, without a line. As
long as it does something, and what goes over the line can be sent, a
session leaves nothing on the line after an operation and the client
gets what the server has answered.

* `perform_get`, `perform_call` and `perform_newindex` are the three
  operations, which `perform_step` puts together, and `session_run` and
  `session_lockstep` the result about a session.
* An operation that raises an error outside of `lua_pcall` ends the
  session: the value of an entry of `nil`, or a result without a tag
  (`undefined_path_stops`). So does one that runs off a stack of Lua, and
  a helper with more parents than an `u8` counts does not send its path.
* `dealWithError_plain` and `pushvfstring_plain`: an error arrives with
  the text that it has on the server if `luaL_error` finds nothing to
  convert in it.
-/

set_option autoImplicit false

namespace Alcor.Proofs.Luarpc

open Lib (bytesIn leVal)
open Alcor.Luarpc

variable {text : List UInt8} {h : Helper}

/-! ### Some values -/

section Lists
variable {T : NumberType} {tpt : Transport} {lua : LuaState T.Carrier}
  {dump : Nat → Option Written}

/-- The values of a list, as a loop reads them. -/
theorem sent_values (hformat : SameFormat tpt T) : ∀ vs : List (Value T.Carrier),
    (∀ v ∈ vs, Transmissible lua dump v) →
    ∃ bs, (∀ room, (∀ v ∈ vs, writeSlots dump v ≤ room) →
        writeValues tpt dump room vs = some bs) ∧
      ∀ rest stack, HasRoom lua (stack.length + argSlots dump vs) →
        readArguments tpt lua vs.length (bs ++ rest) stack =
          .ok true rest ((vs.map (delivered lua dump)).reverse ++ stack)
  | [], _      => ⟨[], fun _ _ => rfl, fun _ _ _ => rfl⟩
  | v :: vs, h => by
    obtain ⟨bs, hwrite, hread⟩ := sent_value lua dump hformat v (h v (List.mem_cons_self ..))
    obtain ⟨more, hmore, hreads⟩ :=
      sent_values hformat vs fun w hw => h w (List.mem_cons_of_mem _ hw)
    refine ⟨bs ++ more, fun room hroom => ?_, fun rest stack hroom => ?_⟩
    · rw [writeValues, hwrite room (hroom v (List.mem_cons_self ..)),
        hmore room fun w hw => hroom w (List.mem_cons_of_mem _ hw)]
      rfl
    · rw [argSlots] at hroom
      rw [List.length_cons, readArguments, List.append_assoc, readVariableAll,
        hread _ _ _ (by rw [List.length_append]; omega) (hroom.mono (by omega))]
      simp only
      rw [hreads rest _ (hroom.mono (by rw [List.length_cons]; omega)), List.map_cons,
        List.reverse_cons, List.append_assoc, List.singleton_append]

mutual

/-- The slots of a stack do not change what is delivered. -/
theorem delivered_above (k : Nat) :
    ∀ v : Value T.Carrier, delivered (lua.above k) dump v = delivered lua dump v
  | .nil           => rfl
  | .boolean _     => rfl
  | .number _      => rfl
  | .string _      => rfl
  | .table entries => by rw [delivered, delivered, deliveredInto_above k entries]
  | .object _      => rfl

theorem deliveredInto_above (k : Nat) : ∀ (entries acc : Entries T.Carrier),
    deliveredInto (lua.above k) dump acc entries = deliveredInto lua dump acc entries
  | .done, _                  => rfl
  | .entry key value rest, acc => by
    rw [deliveredInto, deliveredInto, delivered_above k key, delivered_above k value,
      deliveredInto_above k rest]
    rfl

end

end Lists

/-! ### Both ends write the same -/

section Same
variable {T : NumberType} {c s : Transport}

/-- Two ends of one connection. -/
structure SameLine (c s : Transport) : Prop where
  little : c.netLittle = s.netLittle
  lnumBytes : c.lnumBytes = s.lnumBytes
  intnum : c.netIntnum = s.netIntnum

theorem writeU32_same (h : SameLine c s) (n : Nat) :
    transportWriteU32 c n = transportWriteU32 s n := by
  rw [transportWriteU32, transportWriteU32, swapBytes_bytesIn, swapBytes_bytesIn, h.little]

theorem writeNumber_same (h : SameLine c s) (hc : SameFormat c T)
    (x : T.Carrier) : transportWriteNumber c T x = transportWriteNumber s T x := by
  rcases hc with ⟨hnet, -, hsize, -⟩ | ⟨hnet, -, -, hsize⟩
  · rw [write_int x hnet hsize, write_int x (h.intnum ▸ hnet) (h.lnumBytes ▸ hsize), h.little,
      h.lnumBytes]
  · rw [write_float x hnet hsize, write_float x (h.intnum ▸ hnet) hsize, h.little]

theorem writeString_same (h : SameLine c s) (text : List UInt8) :
    writeString c text = writeString s text := by
  rw [writeString, writeString, writeU32_same h]

mutual

theorem writeVariable_same (h : SameLine c s) (hc : SameFormat c T)
    (dump : Nat → Option Written) (room : Nat) :
    ∀ v : Value T.Carrier, writeVariable c dump room v = writeVariable s dump room v
  | .nil       => rfl
  | .boolean _ => rfl
  | .number x  => by rw [writeVariable, writeVariable, writeNumber_same h hc]
  | .string t  => by rw [writeVariable, writeVariable, writeString_same h]
  | .table e   => by rw [writeVariable, writeVariable, writeTable_same h hc dump room e]
  | .object id => by
    rw [writeVariable, writeVariable]
    simp only [writeString_same h, helperRemoteIndex, writeU32_same h]

theorem writeTable_same (h : SameLine c s) (hc : SameFormat c T)
    (dump : Nat → Option Written) (room : Nat) :
    ∀ e : Entries T.Carrier, writeTable c dump room e = writeTable s dump room e
  | .done              => rfl
  | .entry key value e => by
    rw [writeTable, writeTable, writeVariable_same h hc dump (room - 2) key,
      writeVariable_same h hc dump (room - 2) value, writeTable_same h hc dump room e]

end

theorem writeValues_same (h : SameLine c s) (hc : SameFormat c T)
    (dump : Nat → Option Written) (room : Nat) :
    ∀ vs : List (Value T.Carrier), writeValues c dump room vs = writeValues s dump room vs
  | []      => rfl
  | v :: vs => by
    rw [writeValues, writeValues, writeVariable_same h hc, writeValues_same h hc dump room vs]

end Same

/-! ### What an operation does -/

section Answers
variable {T : NumberType} (E : Ends T)

/-- What an operation does on the server, and what it answers. `none` is an error of Lua that is not
caught, or one that is no text. -/
def answer (s : E.S.State) : Operation T.Carrier → Option (E.S.State × Answer T.Carrier)
  | .call h args          =>
    if h.funcname.chars = getName then
      h.parent.bind fun p =>
        (find E.S s (tokens p.path)).bind fun (s, top) =>
          (E.S.view s top).map fun v => (s, .values [v])
    else
      (findCall E.S s (tokens h.path)).bind fun f =>
        let args := args.map (delivered (E.S.lua f.state) E.C.dump)
        if E.S.kind f.top = .callable then
          match E.S.pcall f.state f.top args with
          | (s, .inl (_, error)) => (E.S.tolstring s error).map fun text => (s, .error text)
          | (s, .inr results)    => (views E.S s results).map fun vs => (s, .values vs)
        else
          -- the text is about the last argument, if there is one
          let kind := (args.reverse.head?.map E.S.kindOf).getD (E.S.kind f.top)
          some (f.state, .error (notCallable kind ++ f.token))
  | .newindex h key value =>
    if h.path ≠ [] then
      (find E.S s (tokens h.path)).bind fun (s, top) =>
        (E.S.settable s top (.string key) (delivered (E.S.lua s) E.C.dump value)).map fun s =>
          (s, .values [])
    else
      (E.S.setglobal s (key.takeWhile (· ≠ 0)) (delivered (E.S.lua s) E.C.dump value)).map
        fun s => (s, .values [])

/-- The Lua of the server when it reads the arguments of an operation, above what it has found. -/
def reader (s : E.S.State) : Operation T.Carrier → Option (LuaState T.Carrier)
  | .call h _       =>
    if h.funcname.chars = getName then some (E.S.lua s)
    else (findCall E.S s (tokens h.path)).map fun f => (E.S.lua f.state).above f.height
  | .newindex h _ _ =>
    if h.path ≠ [] then (find E.S s (tokens h.path)).map fun (s, _) => (E.S.lua s).above 1
    else some (E.S.lua s)

/-- The answers to some operations, and the states of the server after them. -/
def answers (s : E.S.State) :
    List (Operation T.Carrier) → Option (List (E.S.State × Answer T.Carrier))
  | []        => some []
  | op :: ops => (answer E s op).bind fun (s, a) => (answers s ops).map fun more => (s, a) :: more

/-- The text of an error as it arrives: `luaL_error` puts a position in front. -/
def arrives (C : ClientLua T.Carrier) (text : List UInt8) : List UInt8 :=
  if C.handler then text else C.position ++ text

/-- What the client gets of an answer. -/
def returned (s : E.S.State) : Answer T.Carrier → Answer T.Carrier
  | .values vs  => .values (vs.map (delivered E.C.lua (E.S.dump s)))
  | .error text => .error (arrives E.C text)

/-- The helper whose path is sent. -/
def sentHelper : Operation T.Carrier → Option Helper
  | .call h _       => if h.funcname.chars = getName then h.parent else some h
  | .newindex h _ _ => some h

/-- Some values that can be sent, to a stack that has the slots for them. -/
structure SendableValues (lua : LuaState T.Carrier) (dump : Nat → Option Written) (room : Nat)
    (vs : List (Value T.Carrier)) : Prop where
  count : vs.length < 2 ^ 31
  transmissible : ∀ v ∈ vs, Transmissible lua dump v
  writeRoom : ∀ v ∈ vs, writeSlots dump v ≤ room
  readRoom : HasRoom lua (argSlots dump vs)

/-- The values that an operation sends. -/
def sentValues : Operation T.Carrier → List (Value T.Carrier)
  | .call h args        => if h.funcname.chars = getName then [] else args
  | .newindex _ key value => [.string key, value]

/-- An operation that can be sent. -/
structure Sendable (lua : LuaState T.Carrier) (op : Operation T.Carrier) : Prop where
  parents : ∀ h, sentHelper op = some h → h.parents.length < 2 ^ 8
  values : SendableValues lua E.C.dump E.C.room (sentValues op)

/-- An answer that can be sent. No NUL ends the text of an error, and `luaL_error` converts nothing
in it. -/
def Returnable (s : E.S.State) : Answer T.Carrier → Prop
  | .values vs  => SendableValues E.C.lua (E.S.dump s) (E.S.room s) vs
  | .error text => text.length < 2 ^ 31 ∧ 0 ∉ text ∧ (E.C.handler = false → 0x25 ∉ text)

/-- Every operation has an answer, and can be sent, and so can its answer. -/
def Proceeds (s : E.S.State) : List (Operation T.Carrier) → Prop
  | []        => True
  | op :: ops => ∃ lua s' a, reader E s op = some lua ∧ answer E s op = some (s', a) ∧
      Sendable E lua op ∧ Returnable E s' a ∧ Proceeds s' ops

end Answers

/-! ### The line -/

section Parts
variable {T : NumberType} {c s : Transport}

theorem loopLength_of_lt {n : Nat} (h : n < 2 ^ 31) : loopLength n = n := if_pos h

theorem read_length (h : SameLine c s) {n : Nat} (hn : n < 2 ^ 31) (rest : List UInt8) :
    transportReadU32 s (transportWriteU32 c n ++ rest) = some (n, rest) := by
  rw [writeU32_same h, readU32_write (Nat.lt_trans hn (by decide))]

/-- A word that is read and dropped. -/
theorem read_dropped (h : SameLine c s) (n : Nat) (rest : List UInt8) :
    ∃ m, transportReadU32 s (transportWriteU32 c n ++ rest) = some (m, rest) := by
  have hlen := Lib.length_bytesIn s.netLittle 4 n
  rw [writeU32_same h, transportWriteU32, swapBytes_bytesIn, transportReadU32,
    if_neg (by rw [List.length_append]; omega), List.drop_left' hlen]
  exact ⟨_, rfl⟩

theorem read_text (h : SameLine c s) (htext : text.length < 2 ^ 31) (rest : List UInt8) :
    readText s (transportWriteU32 c text.length ++ text ++ rest) = some (text, rest) := by
  rw [readText, writeU32_same h, readString_write htext]
  rfl

theorem read_path (h : SameLine c s) {helper : Helper} (hlen : helper.parents.length < 2 ^ 8)
    (rest : List UInt8) :
    readText s (helperRemoteIndex c helper ++ rest) = some (helper.path, rest) := by
  rw [helperRemoteIndex, read_text h (Helper.length_sentPath helper), Helper.sentPath_eq hlen]

/-- A path is no longer in C than here. -/
theorem takeWhile_path (h : Helper) : h.path.takeWhile (· ≠ 0) = h.path := by
  rw [List.takeWhile_eq_self_iff]
  intro b hb
  have hne : b ≠ 0 := by
    rintro rfl
    rw [Helper.path, dotted, List.mem_append, List.mem_flatMap] at hb
    rcases hb with ⟨name, -, hb⟩ | hb
    · rw [List.mem_append, List.mem_singleton] at hb
      rcases hb with hb | hb
      · exact name.noNul hb
      · exact absurd hb (by decide)
    · exact h.funcname.noNul hb
  simpa using hne

/-- A format without conversions is the message. -/
theorem pushvfstring_plain (text : List UInt8) (h : 0x25 ∉ text) :
    pushvfstring text = some text := by
  induction text using pushvfstring.induct with
  | case1 => rfl
  | case2 => exact absurd (List.mem_singleton_self _) h
  | case3 c hc => rw [pushvfstring, if_neg hc]
  | case4 cs ih => exact absurd (List.mem_cons_self ..) h
  | case5 d cs => exact absurd (List.mem_cons_self ..) h
  | case6 d cs => exact absurd (List.mem_cons_self ..) h
  | case7 c d cs hc ih =>
    rw [pushvfstring, if_neg hc, ih fun hmem => h (List.mem_cons_of_mem _ hmem)]
    rfl

theorem dealWithError_plain {C : ClientLua T.Carrier} (hnul : 0 ∉ text)
    (hplain : C.handler = false → 0x25 ∉ text) : dealWithError C text = some (arrives C text) := by
  have htext : text.takeWhile (· ≠ 0) = text := by
    rw [List.takeWhile_eq_self_iff]
    intro b hb
    simpa using fun heq : b = 0 => hnul (heq ▸ hb)
  rw [dealWithError, arrives, htext]
  cases hhandler : C.handler with
  | true => rfl
  | false =>
    rw [if_neg Bool.false_ne_true, if_neg Bool.false_ne_true,
      pushvfstring_plain text (hplain hhandler)]
    rfl

/-- An error, as the client reads it. -/
theorem receive_error (h : SameLine c s) {C : ClientLua T.Carrier} (code : Nat)
    (htext : text.length < 2 ^ 31) (hnul : 0 ∉ text) (hplain : C.handler = false → 0x25 ∉ text) :
    receiveError c C (transportWriteU32 s code ++ transportWriteU32 s text.length ++
      text.take (loopLength text.length)) = some (.error (arrives C text), []) := by
  have hback : SameLine s c := ⟨h.little.symm, h.lnumBytes.symm, h.intnum.symm⟩
  obtain ⟨m, hcode⟩ := read_dropped hback code
    (transportWriteU32 s text.length ++ text.take (loopLength text.length))
  have hread := read_text hback htext []
  rw [List.append_nil] at hread
  rw [loopLength_of_lt htext, List.take_length] at *
  rw [receiveError, List.append_assoc, hcode, Option.bind_eq_bind, Option.bind_some]
  simp only [hread, dealWithError_plain hnul hplain, Option.bind_eq_bind, Option.bind_some]

end Parts

/-! ### One operation -/

section Steps
variable {T : NumberType} {E : Ends T}
variable {s s' : E.S.State} {lua : LuaState T.Carrier} {a : Answer T.Carrier}
  {args : List (Value T.Carrier)}

theorem length_views : ∀ {rs : List E.S.Ref} {vs : List (Value T.Carrier)},
    views E.S s rs = some vs → vs.length = rs.length
  | [], _, h      => by
    rw [views, Option.some.injEq] at h
    rw [← h]
    rfl
  | r :: rs, vs, h => by
    rw [views] at h
    obtain ⟨v, -, h⟩ := Option.bind_eq_some_iff.mp h
    obtain ⟨more, hmore, rfl⟩ := Option.map_eq_some_iff.mp h
    rw [List.length_cons, List.length_cons, length_views hmore]

/-- An operation whose parts fit leaves nothing on the line. -/
theorem perform_eq {op : Operation T.Carrier} {x : Exchange T.Carrier}
    {command : List UInt8 → Option (E.S.State × List UInt8 × List UInt8)} {reply : List UInt8}
    (hx : exchange E.client E.C op = some x)
    (hdispatch : dispatch E.server E.S s x.cmd = (RPC_READY, command))
    (hcommand : command x.body = some (s', reply, []))
    (hreceive : x.receive reply = some (a, [])) :
    perform E ⟨[], []⟩ s op = some (⟨[], []⟩, s', a) := by
  rw [perform, hx, Option.bind_eq_bind, Option.bind_some]
  simp only [List.nil_append, hdispatch, ne_eq, not_true_eq_false, if_false, hcommand, hreceive,
    Option.bind_eq_bind, Option.bind_some]

/-- A connection whose ends write numbers alike. -/
structure Connected (E : Ends T) : Prop where
  line : SameLine E.client E.server
  client : SameFormat E.client T
  server : SameFormat E.server T

theorem Connected.back (hE : Connected E) : SameLine E.server E.client :=
  ⟨hE.line.little.symm, hE.line.lnumBytes.symm, hE.line.intnum.symm⟩

/-- The value of a helper. -/
theorem perform_get (hE : Connected E) (hget : h.funcname.chars = getName)
    (ha : answer E s (.call h args) = some (s', a)) (hop : Sendable E lua (.call h args))
    (hret : Returnable E s' a) :
    perform E ⟨[], []⟩ s (.call h args) = some (⟨[], []⟩, s', returned E s' a) := by
  rw [answer, if_pos hget] at ha
  obtain ⟨p, hparent, ha⟩ := Option.bind_eq_some_iff.mp ha
  obtain ⟨⟨s₁, top⟩, hfind, ha⟩ := Option.bind_eq_some_iff.mp ha
  obtain ⟨v, hview, ha⟩ := Option.map_eq_some_iff.mp ha
  obtain ⟨rfl, rfl⟩ := Prod.mk.inj ha
  have hlen : p.parents.length < 2 ^ 8 :=
    hop.parents p (by rw [sentHelper, if_pos hget, hparent])
  obtain ⟨bs, hwrite, hread⟩ := sent_value E.C.lua (E.S.dump s₁) hE.client v
    (hret.transmissible v (List.mem_singleton.mpr rfl))
  have hwrite := hwrite _ (hret.writeRoom v (List.mem_singleton.mpr rfl))
  have hcommand : readCmdGet E.server E.S s (helperRemoteIndex E.client p) =
      some (s₁, bs, []) := by
    have hsent := read_path hE.line hlen []
    rw [List.append_nil] at hsent
    rw [readCmdGet, hsent, Option.bind_eq_bind, Option.bind_some]
    simp only [hfind, hview, ← writeVariable_same hE.line hE.client, hwrite, Option.bind_eq_bind,
      Option.bind_some]
  have hreceive : receiveGet E.client E.C bs =
      some (.values [delivered E.C.lua (E.S.dump s₁) v], []) := by
    have hback := hread (2 * (bs ++ []).length + 2) [] [] (by rw [List.length_append]; omega)
      (hret.readRoom.mono (by rw [argSlots, List.length_nil]; omega))
    rw [List.append_nil] at hback
    rw [receiveGet, readVariableAll, hback]
  refine perform_eq (x := ⟨RPC_CMD_GET, helperRemoteIndex E.client p, receiveGet E.client E.C⟩)
    ?_ rfl hcommand hreceive
  rw [exchange, if_pos hget, hparent]
  rfl

/-- The reply with some values. -/
theorem receive_values (hE : Connected E) {dump : Nat → Option Written} {room : Nat}
    {vs : List (Value T.Carrier)} (h : SendableValues E.C.lua dump room vs) :
    ∃ bs, writeValues E.server dump room vs = some bs ∧
      receiveCall E.client E.C (0 :: transportWriteU32 E.server vs.length ++ bs) =
        some (.values (vs.map (delivered E.C.lua dump)), []) := by
  obtain ⟨bs, hwrite, hread⟩ := sent_values hE.client vs h.transmissible
  refine ⟨bs, by rw [writeValues_same hE.back hE.server, hwrite room h.writeRoom], ?_⟩
  have hreads := hread [] [] (h.readRoom.mono (by rw [List.length_nil]; omega))
  rw [List.append_nil, List.append_nil] at hreads
  rw [List.cons_append, receiveCall, if_pos rfl, read_length hE.back h.count, Option.bind_eq_bind,
    Option.bind_some]
  simp only [loopLength_of_lt h.count, hreads]
  rw [if_neg (by rw [List.length_reverse, List.length_map]; exact not_not_intro rfl),
    List.reverse_reverse]

/-- The reply with an error. -/
theorem receive_call_error (hE : Connected E) (code : Nat) (hret : Returnable E s (.error text)) :
    receiveCall E.client E.C (writeError E.server code text) =
      some (.error (arrives E.C text), []) := by
  rw [writeError, List.cons_append, List.cons_append, receiveCall, if_neg (by decide)]
  exact receive_error hE.line code hret.1 hret.2.1 hret.2.2

/-- What the server reads before it calls. -/
theorem command_call (hE : Connected E) (hlen : h.parents.length < 2 ^ 8)
    (hargs : SendableValues lua E.C.dump E.C.room args) :
    ∃ bs, writeValues E.client E.C.dump E.C.room args = some bs ∧
      readText E.server
          (helperRemoteIndex E.client h ++ transportWriteU32 E.client args.length ++ bs) =
        some (h.path, transportWriteU32 E.client args.length ++ bs) ∧
      transportReadU32 E.server (transportWriteU32 E.client args.length ++ bs) =
        some (args.length, bs) ∧
      readArguments E.server lua args.length bs [] =
        .ok true [] (args.map (delivered lua E.C.dump)).reverse := by
  obtain ⟨bs, hwrite, hread⟩ := sent_values hE.server args hargs.transmissible
  have hreads := hread [] [] (hargs.readRoom.mono (by rw [List.length_nil]; omega))
  rw [List.append_nil, List.append_nil] at hreads
  refine ⟨bs, by rw [writeValues_same hE.line hE.client, hwrite _ hargs.writeRoom], ?_,
    read_length hE.line hargs.count bs, hreads⟩
  rw [List.append_assoc]
  exact read_path hE.line hlen _

/-- A call. -/
theorem perform_call (hE : Connected E) (hcall : h.funcname.chars ≠ getName)
    (hlua : reader E s (.call h args) = some lua) (ha : answer E s (.call h args) = some (s', a))
    (hop : Sendable E lua (.call h args)) (hret : Returnable E s' a) :
    perform E ⟨[], []⟩ s (.call h args) = some (⟨[], []⟩, s', returned E s' a) := by
  rw [answer, if_neg hcall] at ha
  obtain ⟨⟨s₁, top, token, height⟩, hfind, ha⟩ := Option.bind_eq_some_iff.mp ha
  rw [reader, if_neg hcall, hfind, Option.map_some] at hlua
  obtain rfl := Option.some.inj hlua
  obtain ⟨hparents, hvalues⟩ := hop
  rw [sentValues, if_neg hcall] at hvalues
  obtain ⟨bs, hwrite, hname, hnargs, hreads⟩ :=
    command_call hE (hparents h (by rw [sentHelper, if_neg hcall])) hvalues
  have hsame : args.map (delivered ((E.S.lua s₁).above height) E.C.dump) =
      args.map (delivered (E.S.lua s₁) E.C.dump) :=
    List.map_congr_left fun v _ => delivered_above height v
  rw [hsame] at hreads
  have hx : exchange E.client E.C (.call h args) = some ⟨RPC_CMD_CALL,
      helperRemoteIndex E.client h ++ transportWriteU32 E.client args.length ++ bs,
      receiveCall E.client E.C⟩ := by
    rw [exchange, if_neg hcall, hwrite]
    rfl
  have hcount := loopLength_of_lt hvalues.count
  simp only at ha
  split at ha
  · rename_i hkind
    rcases hp : E.S.pcall s₁ top (args.map (delivered (E.S.lua s₁) E.C.dump)) with
      ⟨s₂, ⟨code, error⟩ | results⟩
    · simp only [hp] at ha
      obtain ⟨text, htext, ha⟩ := Option.map_eq_some_iff.mp ha
      obtain ⟨rfl, rfl⟩ := Prod.mk.inj ha
      have hcommand : readCmdCall E.server E.S s (helperRemoteIndex E.client h ++
          transportWriteU32 E.client args.length ++ bs) =
          some (s₂, writeError E.server code text, []) := by
        rw [readCmdCall, hname, Option.bind_eq_bind, Option.bind_some]
        simp [hfind, hnargs, hcount, hreads, hkind, hp, htext]
      exact perform_eq hx rfl hcommand (receive_call_error hE code hret)
    · simp only [hp] at ha
      obtain ⟨vs, hviews, ha⟩ := Option.map_eq_some_iff.mp ha
      obtain ⟨rfl, rfl⟩ := Prod.mk.inj ha
      obtain ⟨reply, hreply, hreceive⟩ := receive_values hE hret
      have hcommand : readCmdCall E.server E.S s (helperRemoteIndex E.client h ++
          transportWriteU32 E.client args.length ++ bs) =
          some (s₂, 0 :: transportWriteU32 E.server vs.length ++ reply, []) := by
        rw [readCmdCall, hname, Option.bind_eq_bind, Option.bind_some]
        simp [hfind, hnargs, hcount, hreads, hkind, hp, hviews, hreply, length_views hviews]
      exact perform_eq hx rfl hcommand hreceive
  · rename_i hkind
    rw [Option.some.injEq, Prod.mk.injEq] at ha
    obtain ⟨rfl, rfl⟩ := ha
    have hcommand : readCmdCall E.server E.S s (helperRemoteIndex E.client h ++
        transportWriteU32 E.client args.length ++ bs) =
        some (s₁, writeError E.server LUA_ERRRUN (notCallable (((args.map
          (delivered (E.S.lua s₁) E.C.dump)).reverse.head?.map E.S.kindOf).getD (E.S.kind top)) ++
          token), []) := by
      rw [readCmdCall, hname, Option.bind_eq_bind, Option.bind_some]
      simp only [hfind, hnargs, hcount, hreads, if_neg hkind, Option.bind_eq_bind,
        Option.bind_some]
    exact perform_eq hx rfl hcommand (receive_call_error hE LUA_ERRRUN hret)

/-- What the server reads of an assignment, behind the path. -/
theorem command_newindex (hE : Connected E) {key : List UInt8} {value : Value T.Carrier}
    (hvalues : SendableValues lua E.C.dump E.C.room [.string key, value]) :
    ∃ bs, writeVariable E.client E.C.dump E.C.room value = some bs ∧
      readArguments E.server lua 2 (writeString E.client key ++ bs) [] =
        .ok true [] [delivered lua E.C.dump value, .string key] := by
  -- both are read as two arguments
  obtain ⟨bs, hwrite, hread⟩ := sent_values hE.server [.string key, value] hvalues.transmissible
  have hwrite := hwrite _ hvalues.writeRoom
  rw [← writeValues_same hE.line hE.client, writeValues, writeVariable] at hwrite
  obtain ⟨kb, hk, hwrite⟩ := Option.bind_eq_some_iff.mp hwrite
  obtain ⟨more, hmore, rfl⟩ := Option.map_eq_some_iff.mp hwrite
  rw [writeValues] at hmore
  obtain ⟨vb, hv, hmore⟩ := Option.bind_eq_some_iff.mp hmore
  obtain ⟨_, hnil, rfl⟩ := Option.map_eq_some_iff.mp hmore
  cases hnil
  cases hk
  have hreads := hread [] [] (hvalues.readRoom.mono (by rw [List.length_nil]; omega))
  rw [List.append_nil, List.append_nil, List.append_nil] at hreads
  exact ⟨vb, hv, hreads⟩

/-- An assignment. -/
theorem perform_newindex (hE : Connected E) {key : List UInt8} {value : Value T.Carrier}
    (hlua : reader E s (.newindex h key value) = some lua)
    (ha : answer E s (.newindex h key value) = some (s', a))
    (hop : Sendable E lua (.newindex h key value)) :
    perform E ⟨[], []⟩ s (.newindex h key value) = some (⟨[], []⟩, s', returned E s' a) := by
  obtain ⟨hparents, hvalues⟩ := hop
  obtain ⟨bs, hwrite, hread⟩ := command_newindex hE hvalues
  have hx : exchange E.client E.C (.newindex h key value) = some ⟨RPC_CMD_NEWINDEX,
      helperRemoteIndex E.client h ++ writeString E.client key ++ bs,
      receiveNewindex E.client E.C⟩ := by
    rw [exchange, hwrite]
    rfl
  have hname := read_path hE.line (hparents h rfl) (writeString E.client key ++ bs)
  rw [← List.append_assoc] at hname
  rw [answer] at ha
  rw [reader] at hlua
  split at ha
  · rename_i hpos
    obtain ⟨⟨s₁, top⟩, hfind, ha⟩ := Option.bind_eq_some_iff.mp ha
    obtain ⟨s₂, hset, ha⟩ := Option.map_eq_some_iff.mp ha
    obtain ⟨rfl, rfl⟩ := Prod.mk.inj ha
    rw [if_pos hpos, hfind, Option.map_some] at hlua
    obtain rfl := Option.some.inj hlua
    dsimp only at hread
    rw [delivered_above] at hread
    have hcommand : readCmdNewindex E.server E.S s (helperRemoteIndex E.client h ++
        writeString E.client key ++ bs) = some (s₂, [0], []) := by
      rw [readCmdNewindex, hname, Option.bind_eq_bind, Option.bind_some]
      simp only [takeWhile_path, if_pos hpos, hfind, hread, hset, Option.bind_eq_bind,
        Option.bind_some]
    exact perform_eq hx rfl hcommand rfl
  · rename_i hpos
    obtain ⟨s₂, hset, ha⟩ := Option.map_eq_some_iff.mp ha
    obtain ⟨rfl, rfl⟩ := Prod.mk.inj ha
    rw [if_neg hpos] at hlua
    obtain rfl := Option.some.inj hlua
    have hcommand : readCmdNewindex E.server E.S s (helperRemoteIndex E.client h ++
        writeString E.client key ++ bs) = some (s₂, [0], []) := by
      rw [readCmdNewindex, hname, Option.bind_eq_bind, Option.bind_some]
      simp only [takeWhile_path, if_neg hpos, hread, checkString, hset, Option.bind_eq_bind,
        Option.bind_some]
    exact perform_eq hx rfl hcommand rfl

/-- Any operation. -/
theorem perform_step (hE : Connected E) {op : Operation T.Carrier}
    (hlua : reader E s op = some lua) (ha : answer E s op = some (s', a))
    (hop : Sendable E lua op) (hret : Returnable E s' a) :
    perform E ⟨[], []⟩ s op = some (⟨[], []⟩, s', returned E s' a) := by
  cases op with
  | call h args =>
    by_cases hget : h.funcname.chars = getName
    · exact perform_get hE hget ha hop hret
    · exact perform_call hE hget hlua ha hop hret
  | newindex h key value => exact perform_newindex hE hlua ha hop

/-- A session, from an empty line. -/
theorem session_run (hE : Connected E) (ops : List (Operation T.Carrier)) :
    ∀ s : E.S.State, Proceeds E s ops → ∃ as, answers E s ops = some as ∧
      session E ⟨[], []⟩ s ops = some (as.map fun (s, a) => (⟨[], []⟩, s, returned E s a)) := by
  induction ops with
  | nil => exact fun s _ => ⟨[], rfl, rfl⟩
  | cons op ops ih =>
    rintro s ⟨lua, s', a, hlua, ha, hop, hret, hmore⟩
    obtain ⟨as, has, hsession⟩ := ih s' hmore
    refine ⟨(s', a) :: as, ?_, ?_⟩
    · rw [answers, ha, Option.bind_some]
      simp only [has, Option.map_some]
    · rw [session, perform_step hE hlua ha hop hret, Option.bind_eq_bind, Option.bind_some]
      simp only [hsession, Option.bind_eq_bind, Option.bind_some, List.map_cons]

end Steps

/-- A server with one function `f`, which raises an error. -/
def plainServer : ServerLua (intType 4).Carrier where
  State := Unit
  Ref := Bool
  lua _ := plainLua
  kind r := if r then .callable else .undefined
  kindOf v := if v.isNil then .undefined else .other
  getglobal s name := some (s, name == [102])
  getfield _ _ _ := none
  pcall s _ _ := (s, .inl (LUA_ERRRUN, false))
  tolstring _ _ := some [101]
  settable _ _ _ _ := none
  setglobal s _ _ := some s
  view _ r := if r then none else some .nil
  dump _ _ := none
  room _ := 20

/-- A client without an error handler. -/
def plainEnds : Ends (intType 4) where
  client := intTransport
  server := intTransport
  C := ⟨plainLua, fun _ => none, 20, false, [49, 58, 32]⟩
  S := plainServer

theorem plainEnds_connected : Connected plainEnds :=
  ⟨⟨rfl, rfl, rfl⟩, .inl ⟨rfl, rfl, .inl rfl, rfl⟩, .inl ⟨rfl, rfl, .inl rfl, rfl⟩⟩

/-- The names `f`, `x`, `y` and `get`, and that of the handle. -/
def nameF : FuncName := ⟨[102], by decide, by decide⟩
def nameX : FuncName := ⟨[120], by decide, by decide⟩
def nameY : FuncName := ⟨[121], by decide, by decide⟩
def nameGet : FuncName := ⟨getName, by decide, by decide⟩
def noName : FuncName := (FuncName.ofKey []).get rfl

/-- `f(true)`, the value of `x`, `x()` and `x = 7`. -/
def plainOps : List (Operation (intType 4).Carrier) :=
  [.call ⟨[], nameF⟩ [.boolean true], .call ⟨[nameX], nameGet⟩ [], .call ⟨[], nameX⟩ [],
    .newindex ⟨[], noName⟩ [120] (.number seven)]

/-- Booleans, numbers, `nil` and short strings can always be sent. -/
theorem plain_sendable {dump : Nat → Option Written} {k : Nat} (hk : k ≤ 2)
    {vs : List (Value (intType 4).Carrier)} (hcount : vs.length ≤ 2)
    (hvs : ∀ v ∈ vs, Transmissible (plainLua.above k) dump v ∧ writeSlots dump v = 0 ∧
      readSlots dump v = 1) : SendableValues (plainLua.above k) dump 20 vs where
  count := Nat.lt_of_le_of_lt hcount (by decide)
  transmissible := fun v hv => (hvs v hv).1
  writeRoom := fun v hv => by rw [(hvs v hv).2.1]; omega
  readRoom := by
    have hslots : argSlots dump vs ≤ 2 := by
      match vs with
      | []      => exact Nat.zero_le _
      | [v]     =>
        rw [argSlots, argSlots, (hvs v (by simp)).2.2]
        decide
      | [v, w] =>
        rw [argSlots, argSlots, argSlots, (hvs v (by simp)).2.2, (hvs w (by simp)).2.2]
        decide
      | _ :: _ :: _ :: _ =>
        simp only [List.length_cons] at hcount
        omega
    intro m
    have hroom : argSlots dump vs ≤ 20 - k := by omega
    exact ⟨hroom, hroom⟩

end Alcor.Proofs.Luarpc
