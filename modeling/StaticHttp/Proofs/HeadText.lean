import StaticHttp.Calendar
import StaticHttp.Proofs.Client
import StaticHttp.Proofs.Kept
import StaticHttp.Proofs.Lookup
/-! The text of the heads a server writes. Whatever the request was, no byte in it
could be taken for the end of a line or of a name, and a client reads the length of
the body from it. -/
namespace StaticHttp

namespace Byte

theorem digitPlain {b : UInt8} (digit : isDigit b = true) : isBreak b = false := by
  refine Bool.eq_false_iff.mpr fun broken => ?_
  simp only [isBreak, Bool.or_eq_true, beq_iff_eq] at broken
  rcases broken with rfl | rfl
  · exact absurd digit (by decide)
  · exact absurd digit (by decide)

end Byte

namespace Bytes

def unbroken (bytes : Bytes) : Bool := bytes.all fun b => !Byte.isBreak b

@[simp] theorem unbrokenAppend (front rest : Bytes) : unbroken (front ++ rest) = (unbroken front && unbroken rest) :=
  List.all_append

variable {bytes : Bytes}

theorem unbrokenIff : unbroken bytes = true ↔ ∀ b ∈ bytes, Byte.isBreak b = false := by
  simp only [unbroken, List.all_eq_true, Bool.not_eq_true']

theorem crOutside (fine : unbroken bytes = true) : Byte.cr ∉ bytes :=
  fun inside => absurd (unbrokenIff.mp fine _ inside) (by decide)

theorem lfOutside (fine : unbroken bytes = true) : Byte.lf ∉ bytes :=
  fun inside => absurd (unbrokenIff.mp fine _ inside) (by decide)

end Bytes

namespace Decimal

theorem writePlain (n : Nat) : (write n).unbroken = true :=
  Bytes.unbrokenIff.mpr fun b inside => Byte.digitPlain ((writeNumeral n).2 b inside)

theorem paddedPlain (width n : Nat) : (padded width n).unbroken = true := by
  rw [padded, Bytes.unbrokenAppend, writePlain, Bool.and_true, Bytes.unbrokenIff]
  intro b zero
  rw [(List.mem_replicate.mp zero).2]
  rfl

end Decimal

namespace Calendar

theorem listedEach {names : List String} {P : String → Prop} (each : ∀ text ∈ "" :: names, P text) (i : Nat) :
    P ((names[i]?).getD "") := by
  apply each
  cases there : names[i]? with
  | none => exact List.mem_cons_self
  | some text => exact List.mem_cons_of_mem _ (List.mem_of_getElem? there)

theorem weekdaysPlain : ∀ text ∈ "" :: weekdays, (ascii text).unbroken = true := by decide

theorem monthsPlain : ∀ text ∈ "" :: months, (ascii text).unbroken = true := by decide

theorem datePlain (seconds : Nat) : (httpDate seconds).unbroken = true := by
  have marks : (ascii ", ").unbroken = true ∧ Bytes.unbroken [Byte.space] = true ∧ Bytes.unbroken [Byte.colon] = true ∧
      (ascii " GMT").unbroken = true := by decide
  obtain ⟨comma, space, colon, zone⟩ := marks
  have weekday (days : Nat) : (ascii (weekday days)).unbroken = true := listedEach weekdaysPlain _
  have month (month : Nat) : (ascii (monthName month)).unbroken = true := listedEach monthsPlain _
  simp only [httpDate, Bytes.unbrokenAppend, weekday, month, Decimal.paddedPlain, comma, space, colon, zone, Bool.and_self]

end Calendar

namespace Head

def Typed (r : Request) : Prop := r.contentType ∈ Mime.fallback :: Mime.types.map Prod.snd

theorem keptTyped (service : Service) : Request.Kept service Typed where
  draft _ typed := typed
  phase _ typed := typed
  missing typed := typed
  found extension _ _ := Mime.ofExtensionListed service.hash extension
  rejected _ _ := List.mem_cons_self

variable {limits : Limits} {now : Bytes} {size : Nat} {r : Request}

theorem openingPlain (h : Head) : h.opening.unbroken = true := by
  have reason : ∀ status : Status, (ascii status.reason).unbroken = true := by
    intro status
    cases status <;> decide
  have either : ∀ text ∈ [ascii "HTTP/1.0", ascii "HTTP/1.1"], text.unbroken = true := by decide
  have version := either _ h.version.echoListed
  have space : Bytes.unbroken [Byte.space] = true := by decide
  simp only [opening, Bytes.unbrokenAppend, version, space, Decimal.writePlain, reason, Bool.and_self]

theorem typePlain (typed : Typed r) : (ascii r.contentType).unbroken = true := by
  have listed : ∀ text ∈ Mime.fallback :: Mime.types.map Prod.snd, (ascii text).unbroken = true := by decide
  exact listed _ typed

theorem namesPlain : ∀ name ∈ ["Date", "Server", "Content-Type", "Content-Length", "Connection", "Keep-Alive"],
    Byte.colon ∉ ascii name ∧ Byte.cr ∉ ascii name := by decide

theorem textsPlain : ∀ text ∈ [serverName, "keep-alive", "close", "timeout=", ", max=1"],
    (ascii text).unbroken = true := by decide

theorem fieldPlain {name : String} {value : Bytes}
    (known : name ∈ ["Date", "Server", "Content-Type", "Content-Length", "Connection", "Keep-Alive"])
    (plain : value.unbroken = true) : PlainField (ascii name, value) :=
  ⟨(namesPlain name known).1, (namesPlain name known).2, Bytes.crOutside plain⟩

theorem keptTimePlain (seconds : Nat) : (ascii "timeout=" ++ Decimal.write seconds ++ ascii ", max=1").unbroken = true := by
  have before := textsPlain "timeout=" (by simp)
  have behind := textsPlain ", max=1" (by simp)
  simp only [Bytes.unbrokenAppend, before, behind, Decimal.writePlain, Bool.and_self]

def undated (limits : Limits) (r : Request) (size : Nat) : List (Bytes × Bytes) :=
  [(ascii "Server", ascii serverName), (ascii "Content-Type", ascii r.contentType)] ++
    lengthField size r.keepsAlive ++ connectionFields limits r.keepsAlive

theorem fieldsDated (limits : Limits) (now : Bytes) (r : Request) (size : Nat) :
    (forRequest limits now r size).fields = (ascii "Date", now) :: undated limits r size := rfl

theorem undatedEach (limits : Limits) (r : Request) (size : Nat) {P : Bytes × Bytes → Prop}
    (server : P (ascii "Server", ascii serverName)) (type : P (ascii "Content-Type", ascii r.contentType))
    (length : P (ascii "Content-Length", Decimal.write size))
    (opens : P (ascii "Connection", ascii "keep-alive")) (closes : P (ascii "Connection", ascii "close"))
    (timeout : P (ascii "Keep-Alive",
      ascii "timeout=" ++ Decimal.write (Duration.wholeSeconds limits.keepAlive) ++ ascii ", max=1")) :
    ∀ field ∈ undated limits r size, P field := by
  have fixed : ∀ field ∈ [(ascii "Server", ascii serverName), (ascii "Content-Type", ascii r.contentType)], P field :=
    List.forall_mem_cons.mpr ⟨server, List.forall_mem_singleton.mpr type⟩
  have lengths : ∀ field ∈ lengthField size r.keepsAlive, P field := by
    by_cases told : size > 0 ∨ r.keepsAlive
    · rw [lengthField, if_pos told]
      exact List.forall_mem_singleton.mpr length
    · rw [lengthField, if_neg told]
      exact List.forall_mem_nil _
  have connections : ∀ field ∈ connectionFields limits r.keepsAlive, P field := by
    cases r.keepsAlive with
    | false => exact List.forall_mem_singleton.mpr closes
    | true => exact List.forall_mem_cons.mpr ⟨opens, List.forall_mem_singleton.mpr timeout⟩
  exact List.forall_mem_append.mpr ⟨List.forall_mem_append.mpr ⟨fixed, lengths⟩, connections⟩

theorem forRequestPlain (date : now.unbroken = true) (typed : Typed r) : (forRequest limits now r size).Plain := by
  refine ⟨Bytes.crOutside (openingPlain _), List.forall_mem_cons.mpr ⟨fieldPlain (by simp) date, ?_⟩⟩
  apply undatedEach
  case server => exact fieldPlain (by simp) (textsPlain _ (by simp))
  case type => exact fieldPlain (by simp) (typePlain typed)
  case length => exact fieldPlain (by simp) (Decimal.writePlain size)
  case opens => exact fieldPlain (by simp) (textsPlain _ (by simp))
  case closes => exact fieldPlain (by simp) (textsPlain _ (by simp))
  case timeout => exact fieldPlain (by simp) (keptTimePlain _)

theorem lengthFound (limits : Limits) (now : Bytes) (r : Request) (size : Nat) :
    Client.field? "Content-Length" (forRequest limits now r size).fields =
      if size > 0 ∨ r.keepsAlive then some (Decimal.write size) else none := by
  simp only [forRequest, lengthField]
  split
  · rfl
  · cases r.keepsAlive <;> rfl

theorem connectionFound (limits : Limits) (now : Bytes) (r : Request) (size : Nat) :
    Client.field? "Connection" (forRequest limits now r size).fields =
      some (ascii (if r.keepsAlive then "keep-alive" else "close")) := by
  simp only [forRequest, lengthField]
  cases r.keepsAlive with
  | true =>
    rw [if_pos (.inr rfl)]
    rfl
  | false =>
    split
    · rfl
    · rfl

theorem keptTimeFound (limits : Limits) (now : Bytes) {r : Request} (closes : r.keepsAlive = false) (size : Nat) :
    Client.field? "Keep-Alive" (forRequest limits now r size).fields = none := by
  simp only [forRequest, lengthField, closes]
  split
  · rfl
  · rfl

theorem lengthTold (method : Option Method) (limits : Limits) (now : Bytes) (r : Request) (size : Nat) :
    Client.bodyLength method (forRequest limits now r size).fields =
      some (if method = some .head then 0 else size) := by
  unfold Client.bodyLength
  rw [lengthFound]
  split
  · rfl
  · by_cases told : size > 0 ∨ r.keepsAlive
    · simp only [if_pos told, if_pos (Decimal.writeNumeral size), Decimal.numberWrite]
    · rw [if_neg told, Nat.eq_zero_of_not_pos (not_or.mp told).1]

end Head
end StaticHttp
