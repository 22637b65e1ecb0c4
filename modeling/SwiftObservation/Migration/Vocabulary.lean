import SwiftObservation.Text.Basic

/-!
# The names that the migration knows

Classes that conform to the `ObservableObject` protocol become observable by an attribute, and the property wrappers,
labels and modifiers that belong to the protocol get their successors.
-/

namespace SwiftObservation.Migration

/-- The protocol of observable classes. -/
def observableProtocol : Text := "ObservableObject".toList

/-- The attribute that makes a class observable. -/
def observableName : Text := "Observable".toList

/-- The wrapper of a property that a class publishes. -/
def publishedName : Text := "Published".toList

/-- The wrapper of an object that a view owns, and its successor. -/
def stateObjectName : Text := "StateObject".toList

@[inherit_doc stateObjectName]
def stateName : Text := "State".toList

/-- The wrapper of an object that a view is given. It needs no successor. -/
def observedObjectName : Text := "ObservedObject".toList

/-- The wrapper of an object from a view's environment, and its successor. -/
def environmentObjectName : Text := "EnvironmentObject".toList

@[inherit_doc environmentObjectName]
def environmentName : Text := "Environment".toList

/-- The label of the value that a wrapper is made from, and its successor. -/
def wrappedValueLabel : Text := "wrappedValue".toList

@[inherit_doc wrappedValueLabel]
def initialValueLabel : Text := "initialValue".toList

/-- The modifier that puts an object into the environment, and its successor. -/
def environmentObjectModifier : Text := "environmentObject".toList

@[inherit_doc environmentObjectModifier]
def environmentModifier : Text := "environment".toList

/-- The wrappers whose use shows that a class is observable. -/
def wrapperNames : List Text := [stateObjectName, environmentObjectName, observedObjectName]

end SwiftObservation.Migration
