import Nimburion.Lib.GoTime
import Mathlib.Data.Finmap

namespace Nimburion.EventBus
open GoTime

abbrev Headers := Finmap fun _ : String => String

structure Message where
  id : String
  key : String
  value : List UInt8
  headers : Headers
  contentType : String
  timestamp : Time
  deriving DecidableEq

namespace Kafka

-- headers are a list of pairs with the map's keys; reading it back gives the map
structure KafkaMessage where
  topic : String
  partition : ℕ
  offset : Int
  key : String
  value : List UInt8
  headers : Headers
  time : Time
  deriving DecidableEq

def publish (topic : String) (message : Message) : KafkaMessage where
  topic := topic
  partition := 0
  offset := 0
  key := message.key
  value := message.value
  headers := message.headers
  time := message.timestamp

def consume (msg : KafkaMessage) : Message where
  id := ""
  key := msg.key
  value := msg.value
  headers := msg.headers
  contentType := ""
  timestamp := msg.time

end Kafka

namespace RabbitMQ

structure Publishing where
  messageID : String
  contentType : String
  body : List UInt8
  timestamp : Time
  headers : Headers
  deriving DecidableEq

def publish (message : Message) : Publishing where
  messageID := message.id
  contentType := message.contentType
  body := message.value
  timestamp := message.timestamp
  headers := message.headers

def consume (topic : String) (d : Publishing) : Message where
  id := d.messageID
  key := topic
  value := d.body
  headers := d.headers
  contentType := d.contentType
  timestamp := d.timestamp

end RabbitMQ

namespace SQS

structure SendMessageInput where
  queueURL : String
  messageBody : List UInt8
  messageAttributes : Headers
  deriving DecidableEq

structure Received where
  messageID : String
  body : List UInt8
  messageAttributes : Headers
  deriving DecidableEq

def publish (queueURL : String) (message : Message) : SendMessageInput where
  queueURL := queueURL
  messageBody := message.value
  messageAttributes := message.headers

-- SQS numbers its messages itself
def deliver (messageID : String) (sent : SendMessageInput) : Received where
  messageID := messageID
  body := sent.messageBody
  messageAttributes := sent.messageAttributes

def consume (m : Received) : Message where
  id := m.messageID
  key := ""
  value := m.body
  headers := m.messageAttributes
  contentType := ""
  timestamp := zeroTime

end SQS

inductive Transport where
  | kafka
  | rabbitmq
  | sqs
  deriving DecidableEq, Repr

structure Broker where
  topic : String
  messageID : String
  deriving DecidableEq, Repr

def Transport.carry (b : Broker) : Transport → Message → Message
  | kafka, message => Kafka.consume (Kafka.publish b.topic message)
  | rabbitmq, message => RabbitMQ.consume b.topic (RabbitMQ.publish message)
  | sqs, message => SQS.consume (SQS.deliver b.messageID (SQS.publish b.topic message))

theorem carry_value (b : Broker) (t : Transport) (message : Message) :
    (t.carry b message).value = message.value := by cases t <;> rfl

theorem carry_headers (b : Broker) (t : Transport) (message : Message) :
    (t.carry b message).headers = message.headers := by cases t <;> rfl

end Nimburion.EventBus
