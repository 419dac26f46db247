/-!
What a store may answer instead of doing what it is asked for.
-/

namespace DelayedJobs

inductive StoreError where
  | backend (text : String)
  | serialization (text : String)
  | config (text : String)
  | install (text : String)
  | unavailable (text : String)
deriving DecidableEq, Inhabited

namespace StoreError

def message : StoreError → String
  | backend text => "storage backend error: " ++ text
  | serialization text => "payload serialization failed: " ++ text
  | config text => "invalid storage configuration: " ++ text
  | install text => "storage install failed: " ++ text
  | unavailable text => "storage unavailable: " ++ text

def source? : StoreError → Option String
  | backend text | serialization text => some text
  | _ => none

def isConfig : StoreError → Bool
  | config _ => true
  | _ => false

def isInstall : StoreError → Bool
  | install _ => true
  | _ => false

def isUnavailable : StoreError → Bool
  | unavailable _ => true
  | _ => false

end StoreError
end DelayedJobs
