import StaticHttp.Status
/-! Why a request cannot be answered with a resource. Every cause belongs to
one status. Failures of the system are compared by their kind alone. -/
namespace StaticHttp

inductive IoKind where
  | notFound | permissionDenied
  | connectionRefused | connectionReset | hostUnreachable | networkUnreachable
  | connectionAborted | notConnected | addrInUse | addrNotAvailable | networkDown | brokenPipe
  | alreadyExists | wouldBlock | notADirectory | isADirectory | directoryNotEmpty
  | readOnlyFilesystem | filesystemLoop | staleNetworkFileHandle
  | invalidInput | invalidData | timedOut | writeZero | storageFull | notSeekable
  | quotaExceeded | fileTooLarge | resourceBusy | executableFileBusy | deadlock
  | crossesDevices | tooManyLinks | invalidFilename | argumentListTooLong | interrupted
  | unsupported | unexpectedEof | outOfMemory | inProgress | other
  deriving DecidableEq, Repr

def IoKind.name : IoKind → String
  | notFound => "NotFound"
  | permissionDenied => "PermissionDenied"
  | connectionRefused => "ConnectionRefused"
  | connectionReset => "ConnectionReset"
  | hostUnreachable => "HostUnreachable"
  | networkUnreachable => "NetworkUnreachable"
  | connectionAborted => "ConnectionAborted"
  | notConnected => "NotConnected"
  | addrInUse => "AddrInUse"
  | addrNotAvailable => "AddrNotAvailable"
  | networkDown => "NetworkDown"
  | brokenPipe => "BrokenPipe"
  | alreadyExists => "AlreadyExists"
  | wouldBlock => "WouldBlock"
  | notADirectory => "NotADirectory"
  | isADirectory => "IsADirectory"
  | directoryNotEmpty => "DirectoryNotEmpty"
  | readOnlyFilesystem => "ReadOnlyFilesystem"
  | filesystemLoop => "FilesystemLoop"
  | staleNetworkFileHandle => "StaleNetworkFileHandle"
  | invalidInput => "InvalidInput"
  | invalidData => "InvalidData"
  | timedOut => "TimedOut"
  | writeZero => "WriteZero"
  | storageFull => "StorageFull"
  | notSeekable => "NotSeekable"
  | quotaExceeded => "QuotaExceeded"
  | fileTooLarge => "FileTooLarge"
  | resourceBusy => "ResourceBusy"
  | executableFileBusy => "ExecutableFileBusy"
  | deadlock => "Deadlock"
  | crossesDevices => "CrossesDevices"
  | tooManyLinks => "TooManyLinks"
  | invalidFilename => "InvalidFilename"
  | argumentListTooLong => "ArgumentListTooLong"
  | interrupted => "Interrupted"
  | unsupported => "Unsupported"
  | unexpectedEof => "UnexpectedEof"
  | outOfMemory => "OutOfMemory"
  | inProgress => "InProgress"
  | other => "Other"

def IoKind.all : List IoKind :=
  [notFound, permissionDenied, connectionRefused, connectionReset, hostUnreachable,
   networkUnreachable, connectionAborted, notConnected, addrInUse, addrNotAvailable, networkDown,
   brokenPipe, alreadyExists, wouldBlock, notADirectory, isADirectory, directoryNotEmpty,
   readOnlyFilesystem, filesystemLoop, staleNetworkFileHandle, invalidInput, invalidData, timedOut,
   writeZero, storageFull, notSeekable, quotaExceeded, fileTooLarge, resourceBusy,
   executableFileBusy, deadlock, crossesDevices, tooManyLinks, invalidFilename,
   argumentListTooLong, interrupted, unsupported, unexpectedEof, outOfMemory, inProgress, other]

structure IoFault where
  kind : IoKind
  message : String
  deriving DecidableEq, Repr

inductive Fault where
  | invalidMethod
  | invalidUrl
  | invalidVersion
  | unsupportedVersion
  | invalidHeader
  | headTooLarge
  | invalidContentLength
  | invalidConnection
  | invalidTransferEncoding
  | unsupportedTransferEncoding
  | bodyTooLarge
  | notFound
  | io (fault : IoFault)
  deriving DecidableEq, Repr

namespace Fault

def status : Fault → Status
  | invalidMethod | invalidUrl | invalidVersion | invalidHeader | invalidContentLength
  | invalidConnection | invalidTransferEncoding => .badRequest
  | unsupportedVersion => .httpVersionNotSupported
  | headTooLarge => .requestHeaderFieldsTooLarge
  | unsupportedTransferEncoding => .notImplemented
  | bodyTooLarge => .payloadTooLarge
  | notFound => .notFound
  | io _ => .internalServerError

/- A missing resource leaves the byte stream at a known position; after any
other fault the rest of the stream cannot be read. -/
def closes : Fault → Bool
  | notFound => false
  | _ => true

def text : Fault → String
  | invalidMethod => "InvalidMethod"
  | invalidUrl => "InvalidUrl"
  | invalidVersion => "InvalidVersion"
  | unsupportedVersion => "UnsupportedVersion"
  | invalidHeader => "InvalidHeader"
  | headTooLarge => "HeadTooLarge"
  | invalidContentLength => "InvalidContentLength"
  | invalidConnection => "InvalidConnection"
  | invalidTransferEncoding => "InvalidTransferEncoding"
  | unsupportedTransferEncoding => "UnsupportedTransferEncoding"
  | bodyTooLarge => "BodyTooLarge"
  | notFound => "NotFound"
  | io fault => "Io(" ++ fault.message ++ ")"

def alike : Fault → Fault → Bool
  | io left, io right => left.kind == right.kind
  | left, right => left == right

def plain : List Fault :=
  [invalidMethod, invalidUrl, invalidVersion, unsupportedVersion, invalidHeader, headTooLarge,
   invalidContentLength, invalidConnection, invalidTransferEncoding, unsupportedTransferEncoding,
   bodyTooLarge, notFound]

theorem closesIffStatus (fault : Fault) : fault.closes = false ↔ fault.status = .notFound := by
  cases fault <;> simp [closes, status]

end Fault
end StaticHttp
