import Pactic.Model.System

/-! # Tokens

A login answers with a text that the JWT library has signed for the id and the
email of the account. The guard turns the bearer token of a request back into
`req.user`, whose id the controllers compare. -/
namespace Pactic

/-- The JWT library under the secret of the service. A text that has expired or
was not signed is not verified. -/
structure JwtService where
  sign : Token → String
  verify : String → Option Token

/-- What is verified is what was signed. -/
def JwtService.Faithful (jwt : JwtService) : Prop :=
  ∀ payload payload', jwt.verify (jwt.sign payload) = some payload' → payload' = payload

/-- `req.user` -/
structure AuthenticatedUser where
  id : Int
  email : String

/-- The text for the account with this id and email. -/
def AuthService.generateToken (jwt : JwtService) (id : Int) (email : String) : String :=
  jwt.sign ⟨id, email⟩

def JwtStrategy.validate (payload : Token) : AuthenticatedUser := ⟨payload.sub, payload.email⟩

def JwtAuthGuard.canActivate (jwt : JwtService) (bearerToken : Option String) :
    Option AuthenticatedUser :=
  (bearerToken.bind jwt.verify).map JwtStrategy.validate

/-- The endpoints behind `JwtAuthGuard`. -/
def Request.guarded : Request → Bool
  | signup _ | login _ _ _ => false
  | _ => true

/-- A login was answered with this text. -/
def State.Issued (jwt : JwtService) (s : State) (text : String) : Prop :=
  ∃ tok b ip ua user payload,
    ⟨.http tok (.login b ip ua), .ret (.ok (.login user payload))⟩ ∈ s.threads ∧
      text = AuthService.generateToken jwt payload.sub payload.email

/-- A guarded request comes with a bearer token that the guard accepts, and is
for its user. Nobody but the service can sign, so the token is one that a login
was answered with, or one of those from before. -/
def Authenticated (jwt : JwtService) (before : String → Prop) (s : State) (l : Step) : Prop :=
  ∀ tok r, l = .start (.http tok r) → r.guarded = true → ∃ text user,
    JwtAuthGuard.canActivate jwt (some text) = some user ∧ user.id = tok ∧
      (before text ∨ s.Issued jwt text)

end Pactic
