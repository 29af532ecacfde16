import Pactic.Model.System

/-! # Responses

What the controllers and the exception filter make of the reply of a request. A
request that never ends has no response. -/
namespace Pactic

/-- The `status` of a body. -/
inductive StatusField where
  | bool (b : Bool)
  | str (s : String)
  deriving DecidableEq

/-- The `data` of a body. -/
inductive ResponseData where
  | null
  | reply (r : Reply)
  | job (j : Job)
  | request (c : CachedRequest)
  deriving DecidableEq

/-- Only the exception filter sets `path`. -/
structure Body where
  statusCode : Nat
  status : StatusField
  message : String
  data : ResponseData
  path : Option String
  deriving DecidableEq

/-- `res.status(code).json(body)` -/
structure Response where
  code : Nat
  body : Body
  deriving DecidableEq

def successResponse (message : String) (data : Reply) (statusCode : Nat) : Body :=
  ⟨statusCode, .bool true, message, .reply data, none⟩

/-- The exceptions that extend `HttpException`, with `getStatus()` and the
message in `getResponse()`. -/
def Err.httpException? : Err → Option (Nat × String)
  | conflict m => some (409, m)
  | unauthorized m => some (401, m)
  | badRequest m => some (400, m)
  | _ => none

/-- `exception.message`, for an error of a library as the library has it. -/
def AllExceptionsFilter.catch (libraryMessage : Err → String) (url : String) (exception : Err) :
    Response :=
  let (status, errorMessage) := match exception.httpException? with
    | some (status, message) => (status, if message = "" then "Unknown error" else message)
    | none => (500, match exception with
        | .business message => message
        | e => libraryMessage e)
  ⟨status, ⟨status, .bool false, errorMessage, .null, some url⟩⟩

/-- `res.status(funded.status_code).json({ ... })`; the service replies with one of
the first two. -/
def WalletsController.funded : Reply → Response
  | .queued message job => ⟨202, ⟨202, .str "queued", message, .job job, none⟩⟩
  | .duplicate message data => ⟨409, ⟨409, .str "duplicate", message, .request data, none⟩⟩
  | reply => ⟨200, successResponse "" reply 200⟩

/-- The response to a request that has ended. A created wallet is announced with
201, but its body says 200. -/
def Request.respond (libraryMessage : Err → String) (url : String) (r : Request) :
    Except Err Reply → Response
  | .error e => AllExceptionsFilter.catch libraryMessage url e
  | .ok reply => match r with
    | createWallet _ => ⟨201, successResponse "Wallet created successfully" reply 200⟩
    | fundWallet _ => WalletsController.funded reply
    | getUserWallets _ => ⟨200, successResponse "User wallets retrieved successfully" reply 200⟩
    | withdrawFromWallet _ => ⟨200, successResponse "Withdrawal successful" reply 200⟩
    | transferFunds _ => ⟨200, successResponse "Transfer completed successfully" reply 200⟩
    | signup _ => ⟨201, successResponse "Signup process successful" reply 201⟩
    | login _ _ _ => ⟨200, successResponse "Login successful" reply 200⟩
    | getProfile _ => ⟨200, successResponse "Profile fetched successfully" reply 200⟩
    | updateProfile _ _ => ⟨200, successResponse "Profile updated successfully" reply 200⟩
    | deleteUser _ => ⟨200, successResponse "User deleted (soft) successfully" reply 200⟩

/-- A client error: the request is to blame. -/
def Response.Refuses (r : Response) : Prop := 400 ≤ r.code ∧ r.code < 500

end Pactic
